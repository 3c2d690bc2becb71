import Aiotc.Library.WaitFor
import Aiotc.Master.Cluster

-- The threads of a master over the semaphores `mutex_slave` and `mutex_mobj`. The database is left
-- out: what it answers is an input.

namespace Master

inductive Sem
  | slave
  | mobj
  deriving DecidableEq

inductive Tid
  | slaveLoad
  | objManager
  | rest (i : Nat)
  deriving DecidableEq

-- Where `slave_load_thread` is. In a traversal `next` are the nodes that it still visits: those
-- the queue had when `mutex_slave` was taken, which it keeps until `mutex_slave` is posted.
inductive LoadPc
  | sleep
  | traverse (next : List Addr)
  | detach (a : Addr) (next : List Addr)
  | detaching (a : Addr) (next : List Addr)
  | offline (a : Addr) (next : List Addr)
  | loadOk

-- Where `master_objmanager_thread` is, in a traversal with the place of the object it visits.
inductive ManagerPc
  | init
  | sleep
  | traverse (i : Nat)
  | lowest (i : Nat)
  | lowestHeld (i : Nat)
  | place (i : Nat) (lowest : Option (Addr × SlaveParam))
  | redirect (i : Nat)

-- What a request still does. Around a `body` that needs a semaphore the handler waits for it and
-- posts it.
inductive Handler
  | step (sem : Option Sem) (body : AiotcParams → Option (AiotcParams × Handler))
  | ended

namespace Handler

def critical (sem : Sem) (f : AiotcParams → Option AiotcParams) : Handler :=
  .step sem fun ap => (f ap).map (·, .ended)

def updateMaster (sem : Sem) (f : MasterParams → MasterParams) : Handler :=
  critical sem fun ap => some { ap with masterArgs := f ap.masterArgs }

def sem : Handler → Option Sem
  | step sem _ => sem
  | ended       => none

end Handler

inductive Request
  | systemInit (buf : Text) (malloc : Bool)
  | slaveAdd (buf : Text) (arg : Bool) (node : Ptr)
  | slaveDel (buf : Text)
  | objAdd (buf : Text) (malloc : ObjMalloc)
  | objDel (buf : Text)
  | command (cmd : Command) (buf : Text)
  | taskStart (buf : Text) (exsit malloc : Bool)
  | taskStop (buf : Text)

namespace Request

-- Whether `addObj` gets to `initObjTask`, and there to the search for a slave.
def searchesSlave (buf : Text) (malloc : ObjMalloc) : Bool :=
  0 ≤ getIntValFromJson buf ["id"] ∧ (getStrValFromJson buf ["name"]).isSome ∧
  (getStrValFromJson buf ["type"]).isSome ∧ (getStrValFromJson buf ["data", "subtype"]).isSome ∧
  malloc.task ∧ malloc.originaldata ∧ malloc.semInit ∧
  (getStrValFromJson buf ["slave", "ip"]).isSome

def putObj (malloc : ObjMalloc) : Option ObjParam → Handler
  | none   => .ended
  | some o => .critical .mobj fun ap =>
    let mp := ap.masterArgs
    let mobjQueue :=
      (Queue.putToShmQueue o ap.configArgs.masterObjMax malloc.node mp.mobjQueue).2
    some { ap with masterArgs := { mp with mobjQueue := mobjQueue } }

def obj (url : Url) (buf : Text) (f : ObjParam → ObjParam) : Handler :=
  .critical .mobj fun ap => (requestObj url buf f { ap := ap }).map (·.1.ap)

def handler : Request → Handler
  | systemInit buf malloc      => .step none fun ap => some (systemInits buf malloc ap, .ended)
  | slaveAdd buf arg node      =>
    if (newSlave buf).isSome ∧ arg then .updateMaster .slave (addSlave buf arg node) else .ended
  | slaveDel buf               =>
    if (getStrValFromJson buf ["slaveIp"]).isSome then
      .updateMaster .slave (delSlave buf)
    else
      .ended
  | objAdd buf malloc          =>
    if getIntValFromJson buf ["id"] < 0 then
      .ended
    else
      .step (if searchesSlave buf malloc then some .slave else none) fun ap =>
        some (ap, putObj malloc (newObj buf malloc ap))
  | objDel buf                 =>
    .updateMaster .mobj fun mp => { mp with mobjQueue := delObj buf mp.mobjQueue }
  | command cmd buf            =>
    match cmd.setting buf with
    | none   => .ended
    | some f => obj cmd.url buf fun o => { o with task := f o.task }
  | taskStart buf exsit malloc =>
    match getStrValFromJson buf ["alg"] with
    | none         => .ended
    | some algName =>
      if getIntValFromJson buf ["id"] < 0 ∨ exsit then
        .ended
      else
        obj .taskStart buf (addAlg algName malloc)
  | taskStop buf               =>
    match getStrValFromJson buf ["alg"] with
    | none         => .ended
    | some algName =>
      if getIntValFromJson buf ["id"] < 0 then .ended else obj .taskStop buf (delAlg algName)

end Request

-- `inside` tells if the handler has taken the semaphore of its next step.
structure RestThread where
  handler : Handler
  inside : Bool := false

structure Threads where
  ap : AiotcParams
  owner : Sem → Option Tid := fun _ => none
  slaveLoadOk : Int := 0
  load : LoadPc := .sleep
  manager : ManagerPc := .init
  rest : List RestThread := []

namespace Threads

def semWait (sem : Sem) (t : Tid) (s : Threads) : Option Threads :=
  if s.owner sem = none then
    some { s with owner := Function.update s.owner sem (some t) }
  else
    none

def semPost (sem : Sem) (s : Threads) : Threads :=
  { s with owner := Function.update s.owner sem none }

def slaveQueue (s : Threads) : SlaveQueue :=
  s.ap.masterArgs.slaveQueue

def mobjQueue (s : Threads) : List ObjParam :=
  s.ap.masterArgs.mobjQueue

def setMaster (mp : MasterParams) (s : Threads) : Threads :=
  { s with ap := { s.ap with masterArgs := mp } }

def setSlave (a : Addr) (f : SlaveParam → SlaveParam) (s : Threads) : Threads :=
  s.setMaster { s.ap.masterArgs with slaveQueue := updateSlave a f s.slaveQueue }

-- `ack` and `tvSec` are what `httpGet` and `gettimeofday` return.
def slaveLoadThread (ack : Option Text) (tvSec : Int) (s : Threads) : Option Threads :=
  match s.load with
  | .sleep             => do
    let s ← semWait .slave .slaveLoad s
    return { s with load := .traverse (s.slaveQueue.map Prod.fst) }
  | .traverse []       => some { semPost .slave s with load := .loadOk }
  | .traverse (a :: next) => do
    let p ← slaveAt s.slaveQueue (some a)
    let r := slaveLoad ack tvSec s.ap.sysOrgData p
    -- `online` is only written after `detachSlave`.
    return if r.detach then
      { s.setSlave a fun p => { r.param with online := p.online } with load := .detach a next }
    else
      { s.setSlave a fun _ => r.param with load := .traverse next }
  | .detach a next     => do
    let s ← semWait .mobj .slaveLoad s
    return { s with load := .detaching a next }
  | .detaching a next  => do
    let p ← slaveAt s.slaveQueue (some a)
    let mp ← detachSlave p s.ap.masterArgs
    return { semPost .mobj (s.setMaster mp) with load := .offline a next }
  | .offline a next    =>
    let f (p : SlaveParam) := { p with online := if p.online ≠ 0 then 0 else p.online }
    some { s.setSlave a f with load := .traverse next }
  | .loadOk            =>
    some { s with
      slaveLoadOk := if s.slaveLoadOk = 0 then 1 else s.slaveLoadOk
      load := .sleep }

def setPlaced (i : Nat) (r : Placed) (s : Threads) : Threads :=
  let mp := s.ap.masterArgs
  { s.setMaster { mp with mobjQueue := mp.mobjQueue.set i r.obj } with
    manager := if r.redirect then .redirect i else .traverse (i + 1) }

-- `ack` is the reply to /obj/add.
def objManagerThread (ack : Option Text) (tvSec : Int) (s : Threads) : Option Threads :=
  match s.manager with
  | .init           => some (if s.slaveLoadOk = 0 then s else { s with manager := .sleep })
  | .sleep          => do
    let s ← semWait .mobj .objManager s
    return { s with manager := .traverse 0 }
  | .traverse i     =>
    match s.mobjQueue[i]? with
    | none   => some { semPost .mobj s with manager := .sleep }
    | some o =>
      if o.slave = none then
        some { s with manager := .lowest i }
      else do
        let r ← mobjManager tvSec s.slaveQueue o
        return s.setPlaced i r
  | .lowest i       => do
    let s ← semWait .slave .objManager s
    return { s with manager := .lowestHeld i }
  | .lowestHeld i   =>
    some { semPost .slave s with manager := .place i (getLowestLoadSlave s.slaveQueue) }
  | .place i lowest => do
    let o ← s.mobjQueue[i]?
    return s.setPlaced i (place lowest o)
  | .redirect i     => do
    let o ← s.mobjQueue[i]?
    let a ← o.slave
    let _ ← slaveAt s.slaveQueue o.slave
    let s := if redirectText o = none then s else s.setSlave a (redirectLoad ack)
    return { s with manager := .traverse (i + 1) }

def restThread (i : Nat) (s : Threads) : Option Threads := do
  let t ← s.rest[i]?
  match t.handler, t.inside with
  | .ended, _                   => none
  | .step (some sem) _, false  => do
    let s ← semWait sem (.rest i) s
    return { s with rest := s.rest.set i { t with inside := true } }
  | .step (some sem) body, true => do
    let (ap, h) ← body s.ap
    return { semPost sem s with ap := ap, rest := s.rest.set i { handler := h } }
  | .step none body, _         => do
    let (ap, h) ← body s.ap
    return { s with ap := ap, rest := s.rest.set i { handler := h } }

inductive Label
  | slaveLoad (ack : Option Text) (tvSec : Int)
  | objManager (ack : Option Text) (tvSec : Int)
  | request (r : Request)
  | rest (i : Nat)

def exec : Label → Threads → Option Threads
  | .slaveLoad ack tvSec, s  => slaveLoadThread ack tvSec s
  | .objManager ack tvSec, s => objManagerThread ack tvSec s
  | .request r, s            => some { s with rest := s.rest ++ [{ handler := r.handler }] }
  | .rest i, s               => restThread i s

def Step (s : Threads) (l : Label) (s' : Threads) : Prop :=
  exec l s = some s'

section

variable {s s' : Threads} {k : Sem} {t : Tid} {ack : Option Text} {tvSec : Int}

theorem semWait_some (h : semWait k t s = some s') :
    s.owner k = none ∧ s' = { s with owner := Function.update s.owner k (some t) } := by
  simp only [semWait] at h
  split at h
  case isTrue ho  => exact ⟨ho, (Option.some.inj h).symm⟩
  case isFalse    => cases h

-- The steps of `slave_load_thread` by where it is.
inductive SlaveLoadStep (ack : Option Text) (tvSec : Int) (s : Threads) : Threads → Prop
  | wait : s.load = .sleep → s.owner .slave = none → SlaveLoadStep ack tvSec s
    { s with
      owner := Function.update s.owner .slave (some .slaveLoad)
      load := .traverse (s.slaveQueue.map Prod.fst) }
  | post : s.load = .traverse [] → SlaveLoadStep ack tvSec s
    { semPost .slave s with load := .loadOk }
  | detach {a next p} (f : SlaveParam → SlaveParam) : s.load = .traverse (a :: next) →
    slaveAt s.slaveQueue (some a) = some p →
    (slaveLoad ack tvSec s.ap.sysOrgData p).detach = true →
    SlaveLoadStep ack tvSec s { s.setSlave a f with load := .detach a next }
  | poll {a next p} (f : SlaveParam → SlaveParam) : s.load = .traverse (a :: next) →
    slaveAt s.slaveQueue (some a) = some p →
    (slaveLoad ack tvSec s.ap.sysOrgData p).detach = false →
    SlaveLoadStep ack tvSec s { s.setSlave a f with load := .traverse next }
  | waitMobj {a next} : s.load = .detach a next → s.owner .mobj = none → SlaveLoadStep ack tvSec s
    { s with
      owner := Function.update s.owner .mobj (some .slaveLoad)
      load := .detaching a next }
  | postMobj {a next p mp} : s.load = .detaching a next →
    detachSlave p s.ap.masterArgs = some mp →
    SlaveLoadStep ack tvSec s { semPost .mobj (s.setMaster mp) with load := .offline a next }
  | offline {a next} (f : SlaveParam → SlaveParam) : s.load = .offline a next →
    SlaveLoadStep ack tvSec s { s.setSlave a f with load := .traverse next }
  | loadOk (ok : Int) : s.load = .loadOk →
    SlaveLoadStep ack tvSec s { s with slaveLoadOk := ok, load := .sleep }

theorem slaveLoadThread_step (e : slaveLoadThread ack tvSec s = some s') :
    SlaveLoadStep ack tvSec s s' := by
  simp only [slaveLoadThread] at e
  split at e
  case h_1 hl =>
    have ⟨_, hw, e⟩ := Option.bind_eq_some_iff.mp e
    obtain ⟨ho, rfl⟩ := semWait_some hw
    cases e
    exact .wait hl ho
  case h_2 hl =>
    cases e
    exact .post hl
  case h_3 a next hl =>
    have ⟨p, hp, e⟩ := Option.bind_eq_some_iff.mp e
    cases e
    cases hd : (slaveLoad ack tvSec s.ap.sysOrgData p).detach
    case true  => simpa [hd] using .detach _ hl hp hd
    case false => simpa [hd] using .poll _ hl hp hd
  case h_4 hl =>
    have ⟨_, hw, e⟩ := Option.bind_eq_some_iff.mp e
    obtain ⟨ho, rfl⟩ := semWait_some hw
    cases e
    exact .waitMobj hl ho
  case h_5 hl =>
    obtain ⟨p, -, e⟩ := Option.bind_eq_some_iff.mp e
    have ⟨mp, hd, e⟩ := Option.bind_eq_some_iff.mp e
    cases e
    exact .postMobj hl hd
  case h_6 hl =>
    cases e
    exact .offline _ hl
  case h_7 hl =>
    cases e
    exact .loadOk _ hl

-- The steps of `master_objmanager_thread`.
inductive ObjManagerStep (tvSec : Int) (s : Threads) : Threads → Prop
  | init : s.manager = .init → ObjManagerStep tvSec s s
  | start : s.manager = .init → ObjManagerStep tvSec s { s with manager := .sleep }
  | wait : s.manager = .sleep → s.owner .mobj = none → ObjManagerStep tvSec s
    { s with
      owner := Function.update s.owner .mobj (some .objManager)
      manager := .traverse 0 }
  | post {i} : s.manager = .traverse i → s.mobjQueue[i]? = none →
    ObjManagerStep tvSec s { semPost .mobj s with manager := .sleep }
  | lowest {i o} : s.manager = .traverse i → s.mobjQueue[i]? = some o → o.slave = none →
    ObjManagerStep tvSec s { s with manager := .lowest i }
  | visit {i o r} : s.manager = .traverse i → s.mobjQueue[i]? = some o → o.slave ≠ none →
    mobjManager tvSec s.slaveQueue o = some r → ObjManagerStep tvSec s (s.setPlaced i r)
  | waitSlave {i} : s.manager = .lowest i → s.owner .slave = none → ObjManagerStep tvSec s
    { s with
      owner := Function.update s.owner .slave (some .objManager)
      manager := .lowestHeld i }
  | postSlave {i} : s.manager = .lowestHeld i → ObjManagerStep tvSec s
    { semPost .slave s with manager := .place i (getLowestLoadSlave s.slaveQueue) }
  | place {i lowest o} : s.manager = .place i lowest → s.mobjQueue[i]? = some o →
    ObjManagerStep tvSec s (s.setPlaced i (place lowest o))
  | redirect {i} (a : Addr) (f : SlaveParam → SlaveParam) : s.manager = .redirect i →
    ObjManagerStep tvSec s { s.setSlave a f with manager := .traverse (i + 1) }
  | noText {i} : s.manager = .redirect i →
    ObjManagerStep tvSec s { s with manager := .traverse (i + 1) }

theorem objManagerThread_step (e : objManagerThread ack tvSec s = some s') :
    ObjManagerStep tvSec s s' := by
  simp only [objManagerThread] at e
  split at e
  case h_1 hm =>
    cases e
    split
    case isTrue  => exact .init hm
    case isFalse => exact .start hm
  case h_2 hm =>
    have ⟨_, hw, e⟩ := Option.bind_eq_some_iff.mp e
    obtain ⟨ho, rfl⟩ := semWait_some hw
    cases e
    exact .wait hm ho
  case h_3 hm =>
    split at e
    case h_1 ho =>
      cases e
      exact .post hm ho
    case h_2 o ho =>
      split at e
      case isTrue hs =>
        cases e
        exact .lowest hm ho hs
      case isFalse hs =>
        have ⟨r, hr, e⟩ := Option.bind_eq_some_iff.mp e
        cases e
        exact .visit hm ho hs hr
  case h_4 hm =>
    have ⟨_, hw, e⟩ := Option.bind_eq_some_iff.mp e
    obtain ⟨ho, rfl⟩ := semWait_some hw
    cases e
    exact .waitSlave hm ho
  case h_5 hm =>
    cases e
    exact .postSlave hm
  case h_6 hm =>
    have ⟨o, ho, e⟩ := Option.bind_eq_some_iff.mp e
    cases e
    exact .place hm ho
  case h_7 hm =>
    obtain ⟨o, -, e⟩ := Option.bind_eq_some_iff.mp e
    obtain ⟨a, -, e⟩ := Option.bind_eq_some_iff.mp e
    obtain ⟨p, -, e⟩ := Option.bind_eq_some_iff.mp e
    cases e
    split
    · exact .noText hm
    · exact .redirect _ _ hm

-- The steps of a request.
inductive RestStep (i : Nat) (s : Threads) : Threads → Prop
  | wait {t sem body} : s.rest[i]? = some t → t.handler = .step (some sem) body →
    t.inside = false → s.owner sem = none → RestStep i s
    { s with
      owner := Function.update s.owner sem (some (.rest i))
      rest := s.rest.set i { t with inside := true } }
  | run {t sem body r} : s.rest[i]? = some t → t.handler = .step (some sem) body →
    t.inside = true → body s.ap = some r → RestStep i s
    { semPost sem s with ap := r.1, rest := s.rest.set i { handler := r.2 } }
  | free {t body r} : s.rest[i]? = some t → t.handler = .step none body → body s.ap = some r →
    RestStep i s { s with ap := r.1, rest := s.rest.set i { handler := r.2 } }

theorem restThread_step {i : Nat} (e : restThread i s = some s') : RestStep i s s' := by
  have ⟨t, ht, e⟩ := Option.bind_eq_some_iff.mp e
  split at e
  case h_1 => cases e
  case h_2 hh hi =>
    have ⟨_, hw, e⟩ := Option.bind_eq_some_iff.mp e
    obtain ⟨ho, rfl⟩ := semWait_some hw
    cases e
    exact .wait ht hh hi ho
  case h_3 hh hi =>
    have ⟨r, hr, e⟩ := Option.bind_eq_some_iff.mp e
    cases e
    exact .run ht hh hi hr
  case h_4 hh =>
    have ⟨r, hr, e⟩ := Option.bind_eq_some_iff.mp e
    cases e
    exact .free ht hh hr

end

end Threads

end Master
