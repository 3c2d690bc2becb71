import Aiotc.Library.Run
import Aiotc.Library.WaitFor
import Aiotc.Pids.Basic

-- SIGCHLD and the semaphore `mutex_pid`. The handler runs on top of what a thread of main is doing,
-- which goes on only when the handler is over.

open Queue

namespace Pids

-- The threads of main: that of `createTasks`, `slave_objmanager_thread`, and `msgThread`, which has
-- no command that needs the semaphore. No thread blocks SIGCHLD.
inductive Tid
  | main
  | objManager
  | msg
  deriving DecidableEq

-- The functions that need the semaphore. `createProcess` and `getEmptyProc` come to them with the
-- object for which they do it.
inductive Pc
  | getEmptyProc (obj : ObjParam) (taskName : CStr)
  | put2PidQueue (ops : PidOps) (obj : Option ObjParam)
  | getOpsByPid (obj : ObjParam) (pid : Int)

-- Those of the handler, in `creatProcByPid`.
inductive RecreatePc
  | getOpsByPid (quitPid : Int)
  | delOpsByPid (quitPid : Int)

-- `pc` is the function of which the thread is at the `semWait`, or behind it if it is `inside`. The
-- same holds for the handler. In the thread in which it runs SIGCHLD is blocked.
structure Thread where
  pc : Option Pc := none
  inside : Bool := false
  handler : Option (RecreatePc × Bool) := none

-- What main reads besides `pidQueue`, and what the calls return. `forked` are the key and the pid
-- of a new process; there is none where `createProcess` fails before the fork.
structure Outcome where
  load : Int := 0
  forked : Option (Int × Int) := none
  semInit : Bool := true
  node : Bool := true
  tvSec : Int := 0

-- `todo` are the processes that `createTasks` is still to create.
structure Interrupts where
  configArgs : ConfigParams
  todo : List CStr
  pidQueue : List PidOps := []
  owner : Option Tid := none
  threads : Tid → Thread := fun _ => {}

namespace Interrupts

def createTasks (cfg : ConfigParams) : List CStr :=
  (if cfg.masterEnable ≠ 0 then ["master"] else []) ++
  (if cfg.masterEnable = 0 ∨ cfg.masterEnable = 2 then ["work", "rest"] else [])

def init (cfg : ConfigParams) : Interrupts where
  configArgs := cfg
  todo := createTasks cfg

-- What follows the `put2PidQueue` of a process.
def afterPut (pid : Int) : Option ObjParam → Option Pc
  | none     => none
  | some obj => if 0 < pid then some (.getOpsByPid obj pid) else none

def createProcess (name subName taskName : CStr) (x : Outcome) (obj : Option ObjParam) :
    Option Pc :=
  match getOpsByName name subName taskName, x.forked with
  | some ops, some (msgKey, pid) =>
    if x.semInit then
      some (.put2PidQueue { ops with msgKey := msgKey, pid := pid } obj)
    else
      afterPut pid obj
  | _, _                         => none

def getEmptyProc (obj : ObjParam) (taskName : CStr) : Option Pc :=
  (getOpsByName "obj" obj.subtype taskName).map fun _ => .getEmptyProc obj taskName

-- What a function does between its `semWait` and the next one, with its `semPost`.
def body (cfg : ConfigParams) (x : Outcome) (q : List PidOps) : Pc → List PidOps × Option Pc
  | .getEmptyProc obj taskName =>
    match getOpsByName "obj" obj.subtype taskName with
    | none     => (q, none)
    | some tmp =>
      match searchFromQueue (conditionByPidOps obj.id "obj" obj.subtype tmp) q with
      | some _ => (q, none)
      | none   =>
        match searchFromQueue (conditionByPidOps2 "obj" obj.subtype tmp) q with
        | some ops => (q, afterPut ops.pid (some obj))
        | none     =>
          if x.load < SLAVE_LOAD_MAX then
            (q, createProcess "obj" obj.subtype taskName x (some obj))
          else
            (q, none)
  | .put2PidQueue ops obj      =>
    ((putToShmQueue ops (cfg.slaveObjMax * 3) x.node q).2, afterPut ops.pid obj)
  | .getOpsByPid obj pid       =>
    (modifyFound (conditionByPid pid) (putObj2pidQue obj x.node) q, none)

def handlerBody (x : Outcome) (q : List PidOps) :
    RecreatePc → List PidOps × Option RecreatePc
  | .getOpsByPid quitPid =>
    match getOpsByPid quitPid q with
    | none     => (q, none)
    | some ops =>
      if ops.running = 0 then
        (q, some (.delOpsByPid quitPid))
      else if x.tvSec - ops.lastReboot < 300 then
        (q, none)
      else
        match x.forked with
        | none          => (q, none)
        | some (_, pid) =>
          let f (ops : PidOps) := { ops with pid := pid, lastReboot := x.tvSec }
          (modifyFound (conditionByPid quitPid) f q, none)
  | .delOpsByPid quitPid => (delFromQueue (conditionByPid quitPid) q, none)

def set (t : Tid) (th : Thread) (s : Interrupts) : Interrupts :=
  { s with threads := Function.update s.threads t th }

-- `createTasks` is over, with which the other threads are there.
def Started (s : Interrupts) : Prop :=
  s.todo = [] ∧ (s.threads .main).pc.isNone

instance {s : Interrupts} : Decidable s.Started :=
  inferInstanceAs (Decidable (_ ∧ _))

-- The thread goes on with its own code, of which nothing is under way.
def Ready (th : Thread) : Prop :=
  th.pc.isNone ∧ th.handler.isNone

instance {th : Thread} : Decidable (Ready th) :=
  inferInstanceAs (Decidable (_ ∧ _))

def semWait (t : Tid) (s : Interrupts) : Option Interrupts :=
  let th := s.threads t
  if s.owner = none then
    match th.handler with
    | some (h, false) =>
      some { s.set t { th with handler := some (h, true) } with owner := some t }
    | some (_, true)  => none
    | none            =>
      if th.pc.isSome ∧ ¬th.inside then
        some { s.set t { th with inside := true } with owner := some t }
      else
        none
  else
    none

def semPost (t : Tid) (x : Outcome) (s : Interrupts) : Option Interrupts :=
  let th := s.threads t
  match th.handler with
  | some (h, true)  =>
    let (q, next) := handlerBody x s.pidQueue h
    some { s.set t { th with handler := next.map (·, false) } with pidQueue := q, owner := none }
  | some (_, false) => none
  | none            => do
    let pc ← th.pc
    if th.inside then
      let (q, next) := body s.configArgs x s.pidQueue pc
      return { s.set t { pc := next } with pidQueue := q, owner := none }
    else
      none

-- `childQuit` is a SIGCHLD that is delivered to the thread, and its `wait`. `write` is what a
-- process does to its entry.
inductive Label
  | createProcess (x : Outcome)
  | getEmptyProc (obj : ObjParam) (taskName : CStr)
  | semWait (t : Tid)
  | semPost (t : Tid) (x : Outcome)
  | childQuit (t : Tid) (quitPid : Int)
  | write (pid : Int) (f : PidOps → PidOps)

def exec : Label → Interrupts → Option Interrupts
  | .createProcess x, s           =>
    match s.todo with
    | []           => none
    | name :: todo =>
      if Ready (s.threads .main) then
        some { s.set .main { pc := createProcess name "null" "null" x none } with todo := todo }
      else
        none
  | .getEmptyProc obj taskName, s =>
    if s.Started ∧ Ready (s.threads .objManager) ∧
        (s.configArgs.masterEnable = 0 ∨ s.configArgs.masterEnable = 2) then
      some (s.set .objManager { pc := getEmptyProc obj taskName })
    else
      none
  | .semWait t, s                 => semWait t s
  | .semPost t x, s               => semPost t x s
  | .childQuit t quitPid, s       =>
    let th := s.threads t
    if th.handler.isNone ∧ (t = .main ∨ s.Started) then
      some (s.set t { th with handler := some (.getOpsByPid quitPid, false) })
    else
      none
  | .write pid f, s               =>
    some { s with pidQueue := modifyFound (conditionByPid pid) f s.pidQueue }

def Step (s : Interrupts) (l : Label) (s' : Interrupts) : Prop :=
  exec l s = some s'

-- The handler waits for a semaphore that the thread owns on which it runs.
def Blocked (s : Interrupts) (t : Tid) : Prop :=
  (s.threads t).inside ∧ ∃ h, (s.threads t).handler = some (h, false)

-- No handler does, and who owns the semaphore is not kept from posting it.
structure Unblocked (s : Interrupts) : Prop where
  handler : ∀ t, ¬s.Blocked t
  post    : ∀ t, s.owner = some t → ∀ x, ∃ s', Step s (.semPost t x) s'

-- A SIGCHLD is not delivered to a thread that is between its `semWait` and its `semPost`.
def Outside (s : Interrupts) : Label → Prop
  | .childQuit t _ => (s.threads t).inside = false
  | _              => True

-- The steps by what they do to the semaphore and to the thread that takes them.
inductive Effect (s : Interrupts) : Label → Interrupts → Prop
  | call {l t th todo} : (s.threads t).pc = none → (s.threads t).handler = none →
    th.inside = false → th.handler = none → Effect s l { s.set t th with todo := todo }
  | wait {t} : s.owner = none → (s.threads t).handler = none → (s.threads t).pc.isSome →
    (s.threads t).inside = false → Effect s (.semWait t)
      { s.set t { s.threads t with inside := true } with owner := some t }
  | handlerWait {t h} : s.owner = none → (s.threads t).handler = some (h, false) →
    Effect s (.semWait t)
      { s.set t { s.threads t with handler := some (h, true) } with owner := some t }
  | post {t x q next} : (s.threads t).handler = none → (s.threads t).inside = true →
    Effect s (.semPost t x) { s.set t { pc := next } with pidQueue := q, owner := none }
  | handlerPost {t x h q} (next : Option RecreatePc) : (s.threads t).handler = some (h, true) →
    Effect s (.semPost t x)
      { s.set t { s.threads t with handler := next.map (·, false) } with
        pidQueue := q
        owner := none }
  | childQuit {t quitPid} : (s.threads t).handler = none → Effect s (.childQuit t quitPid)
      (s.set t { s.threads t with handler := some (.getOpsByPid quitPid, false) })
  | write {pid f q} : Effect s (.write pid f) { s with pidQueue := q }

variable {s s' : Interrupts} {l : Label} {t : Tid}

theorem semWait_effect (e : semWait t s = some s') : Effect s (.semWait t) s' := by
  simp only [semWait] at e
  split at e
  case isTrue ho =>
    split at e
    case h_1 hh =>
      cases e
      exact .handlerWait ho hh
    case h_2 => cases e
    case h_3 hh =>
      split at e <;> cases e
      case isTrue hp => exact .wait ho hh hp.left (by simpa using hp.right)
  case isFalse => cases e

theorem semPost_effect {x : Outcome} (e : semPost t x s = some s') :
    Effect s (.semPost t x) s' := by
  simp only [semPost] at e
  split at e
  case h_1 hh =>
    cases e
    exact .handlerPost _ hh
  case h_2 => cases e
  case h_3 hh =>
    obtain ⟨pc, -, e⟩ := Option.bind_eq_some_iff.mp e
    split at e <;> cases e
    case isTrue hi => exact .post hh hi

theorem Step.effect (e : Step s l s') : Effect s l s' := by
  cases l
  case semWait   => exact semWait_effect e
  case semPost   => exact semPost_effect e
  case createProcess =>
    simp only [Step, exec] at e
    split at e
    case h_1 => cases e
    case h_2 =>
      split at e <;> cases e
      case isTrue hr =>
        exact .call (Option.isNone_iff_eq_none.mp hr.left) (Option.isNone_iff_eq_none.mp hr.right)
          rfl rfl
  case getEmptyProc obj taskName =>
    simp only [Step, exec] at e
    split at e <;> cases e
    case isTrue hr =>
      have hr := hr.right.left
      have he : Effect s (.getEmptyProc obj taskName)
          { s.set .objManager { pc := getEmptyProc obj taskName } with todo := s.todo } :=
        .call (Option.isNone_iff_eq_none.mp hr.left) (Option.isNone_iff_eq_none.mp hr.right)
          rfl rfl
      exact he
  case childQuit =>
    simp only [Step, exec] at e
    split at e <;> cases e
    case isTrue hn => exact .childQuit (Option.isNone_iff_eq_none.mp hn.left)
  case write =>
    cases e
    exact .write

-- The semaphore as often as the thread has taken it, in its own code and in the handler.
def held (th : Thread) : List Unit :=
  (if th.inside then [()] else []) ++ (if th.handler.any Prod.snd then [()] else [])

structure Inv (s : Interrupts) : Prop where
  owned : Locks.Owned (fun _ => s.owner) fun t => held (s.threads t)
  pc    : ∀ t, (s.threads t).inside → (s.threads t).pc.isSome
  once  : ∀ t, (held (s.threads t)).length ≤ 1

theorem init_inv (cfg : ConfigParams) : Inv (init cfg) where
  owned  := .init fun _ => rfl
  pc _ h := by cases h
  once _ := Nat.zero_le _

-- A step of one thread.
theorem Inv.update {th : Thread} (h : Inv s) (ht : s'.threads = Function.update s.threads t th)
    (hm : Locks.Move (fun _ => s.owner) t (held (s.threads t)) (fun _ => s'.owner) (held th))
    (hp : th.inside → th.pc.isSome) (ho : (held th).length ≤ 1) : Inv s' := by
  have hth : s'.threads t = th := by rw [ht, Function.update_self]
  have hne : ∀ t', t' ≠ t → s'.threads t' = s.threads t' := fun t' hn => by
    rw [ht, Function.update_of_ne hn]
  constructor
  case owned => exact h.owned.move (t := t) (hth ▸ hm) fun t' hn => by rw [hne t' hn]
  case pc =>
    intro t'
    rcases eq_or_ne t' t with rfl | hn
    · exact hth ▸ hp
    · exact hne t' hn ▸ h.pc t'
  case once =>
    intro t'
    rcases eq_or_ne t' t with rfl | hn
    · exact hth ▸ ho
    · exact hne t' hn ▸ h.once t'

theorem move_wait : Locks.Move (fun _ => none) t [] (fun _ => some t) [()] := by
  have hu : Function.update (fun _ => none) () (some t) = fun _ => some t := by
    funext k
    rfl
  exact hu ▸ .wait rfl

theorem move_post {o : Option Tid} : Locks.Move (fun _ => o) t [()] (fun _ => none) [] := by
  have hu : Function.update (fun _ => o) () none = fun _ => none := by
    funext k
    rfl
  exact hu ▸ .post List.not_mem_nil

theorem Inv.held_eq_nil (h : Inv s) (ho : s.owner = none) (t : Tid) : held (s.threads t) = [] := by
  apply List.eq_nil_iff_forall_not_mem.mpr
  intro k hk
  have := (h.owned.iff t k).mpr hk
  simp [ho] at this

theorem Step.inv (h : Inv s) (e : Step s l s') : Inv s' := by
  cases e.effect
  case call t th _ hp hh hi hh' =>
    have hi' : (s.threads t).inside = false := by
      by_contra hi'
      simpa [hp] using h.pc t (by simpa using hi')
    refine h.update rfl ?_ (by simp [hi]) (by simp [held, hi, hh'])
    simpa [held, hi, hh', hi', hh] using .stay
  case wait t ho hh hp hi =>
    refine h.update rfl ?_ (fun _ => hp) (by simp [held, hh])
    simpa [held, hh, hi, ho] using move_wait
  case handlerWait t hd ho hh =>
    have hi : (s.threads t).inside = false := by
      simpa [held, hh] using h.held_eq_nil ho t
    refine h.update rfl ?_ (h.pc t) (by simp [held, hi])
    simpa [held, hh, hi, ho] using move_wait
  case post t x q next hh hi =>
    refine h.update rfl ?_ (by simp) (by simp [held])
    simpa [held, hh, hi] using move_post
  case handlerPost t x hd q next hh =>
    have hi : (s.threads t).inside = false := by
      simpa [held, hh] using h.once t
    refine h.update rfl ?_ (h.pc t) (by cases next <;> simp [held, hi])
    cases next <;> simpa [held, hh, hi] using move_post
  case childQuit t quitPid hh =>
    refine h.update rfl ?_ (h.pc t) ?_
    · simpa [held, hh] using .stay
    · simpa [held, hh] using h.once t
  case write => exact ⟨h.owned, h.pc, h.once⟩

theorem Blocked.congr (h : s.Blocked t) (ht : s'.threads t = s.threads t) : s'.Blocked t := by
  simpa only [Blocked, ht] using h

-- A handler that waits for what its own thread owns waits forever.
theorem Blocked.step (hi : Inv s) (h : s.Blocked t) (e : Step s l s') : s'.Blocked t := by
  have ⟨hin, hd, hh⟩ := h
  have ho : s.owner = some t := (hi.owned.iff t ()).mpr (by simp [held, hin])
  -- Nobody else owns it.
  have hu : ∀ u, held (s.threads u) ≠ [] → u = t := fun u hu => by
    have ⟨k, hk⟩ := List.exists_mem_of_ne_nil _ hu
    exact Option.some.inj (((hi.owned.iff u k).mpr hk).symm.trans ho)
  have hset : ∀ {u th}, u ≠ t → (Function.update s.threads u th) t = s.threads t := fun hn =>
    Function.update_of_ne (Ne.symm hn) _ _
  cases e.effect
  case call u th _ _ hh' _ _ =>
    have hn : u ≠ t := fun he => by simp [he, hh] at hh'
    exact h.congr (hset hn)
  case wait ho' _ _ _      => simp [ho] at ho'
  case handlerWait ho' _   => simp [ho] at ho'
  case post u _ _ _ hh' hi' =>
    cases hu u (by simp [held, hi'])
    simp [hh] at hh'
  case handlerPost u _ _ _ _ hh' =>
    cases hu u (by simp [held, hh'])
    simp [hh] at hh'
  case childQuit u _ hh' =>
    have hn : u ≠ t := fun he => by simp [he, hh] at hh'
    exact h.congr (hset hn)
  case write => exact h.congr rfl

theorem Blocked.forever {tr : List (Interrupts × Label)} (hi : Inv s) (h : s.Blocked t)
    (r : Run Step s tr s') : s'.Blocked t :=
  (r.invariant (I := fun s => Inv s ∧ s.Blocked t)
    (fun _ _ _ h e => ⟨e.inv h.left, h.right.step h.left e⟩) ⟨hi, h⟩).right

-- Handlers run only on threads that do not own the semaphore.
structure Safe (s : Interrupts) : Prop extends Inv s where
  handler : ∀ t, (s.threads t).handler.isSome → (s.threads t).inside = false

theorem Safe.unblocked (h : Safe s) : Unblocked s where
  handler t := by
    rintro ⟨hi, hd, hh⟩
    simpa [hi] using h.handler t (by simp [hh])
  post t ho x := by
    have hm := (h.owned.iff t ()).mp ho
    cases hh : (s.threads t).handler
    case none =>
      have hi : (s.threads t).inside = true := by
        by_contra hi
        simp [held, hh, hi] at hm
      have ⟨pc, hp⟩ := Option.isSome_iff_exists.mp (h.pc t hi)
      exact ⟨_, by simp only [Step, exec, semPost, hh, hp, hi]; rfl⟩
    case some hd =>
      have ⟨hd, b⟩ := hd
      have hi := h.handler t (by simp [hh])
      cases b
      case false => simp [held, hh, hi] at hm
      case true  => exact ⟨_, by simp only [Step, exec, semPost, hh]; rfl⟩

theorem Step.safe (h : Safe s) (hs : Outside s l) (e : Step s l s') : Safe s' := by
  refine ⟨e.inv h.toInv, fun t' => ?_⟩
  have hset : ∀ {u th}, (th.handler.isSome → th.inside = false) →
      (Function.update s.threads u th t').handler.isSome →
      (Function.update s.threads u th t').inside = false := by
    intro u th hth
    rcases eq_or_ne t' u with rfl | hn
    · simpa using hth
    · simpa [Function.update_of_ne hn] using h.handler t'
  cases e.effect
  case call hi _              => exact hset fun _ => hi
  case wait hh _ _            => exact hset (by simp [hh])
  case handlerWait t _ _ hh   => exact hset fun _ => h.handler t (by simp [hh])
  case post                   => exact hset (by simp)
  case handlerPost t _ _ _ _ hh => exact hset fun _ => h.handler t (by simp [hh])
  case childQuit              => exact hset fun _ => hs
  case write                  => exact h.handler t'

-- The handler never waits for a semaphore of its own thread exactly if it never runs between the
-- thread's `semWait` and `semPost`.
theorem unblocked_iff_outside {cfg : ConfigParams} {tr : List (Interrupts × Label)}
    (r : Run Step (init cfg) tr s) : Run.Always Unblocked tr s ↔ Run.Meets Outside tr := by
  refine Run.always_iff_meets (fun _ _ _ h hs e => e.safe h hs) (fun _ h => h.unblocked) ?_ r
    ⟨init_inv cfg, fun _ h => by cases h⟩
  intro s l s' h e hu
  cases l
  case childQuit t quitPid =>
    simp only [Step, exec] at e
    split at e <;> cases e
    have hb := hu.handler t
    simpa [Blocked, Interrupts.set, Outside] using hb
  all_goals trivial

section

-- A slave.
def cfg : ConfigParams :=
  ⟨0, 100, 100, 1000, 100⟩

-- The process that is created first exits while main puts it into the table.
theorem unblocked_iff_outside_witness :
    ∃ s, Run Step (init cfg) (Run.partialTrace exec [.createProcess { forked := some (1001, 71) },
        .childQuit .main 71, .semWait .main, .semPost .main {}, .semWait .main] (init cfg)) s ∧
      Unblocked s ∧ s.owner = some .main := by
  have r := Run.of_partialTrace exec [.createProcess { forked := some (1001, 71) },
    .childQuit .main 71, .semWait .main, .semPost .main {}, .semWait .main] (init cfg) rfl
  refine ⟨_, r, ((unblocked_iff_outside r).mpr ?_).last, rfl⟩
  iterate 5 refine Run.meets_cons.mpr ⟨by trivial, ?_⟩
  exact Run.meets_nil

-- It exits when main is inside of `put2PidQueue`. Main is blocked from then on.
theorem not_unblocked :
    (∃ tr s, Run Step (init cfg) tr s ∧ ¬Unblocked s ∧
      ∀ tr' s', Run Step s tr' s' → s'.Blocked .main) ∧
    ¬∀ (cfg : ConfigParams) (tr : List (Interrupts × Label)) (s : Interrupts),
      Run Step (init cfg) tr s → Unblocked s := by
  have r := Run.of_partialTrace exec [.createProcess { forked := some (1001, 71) }, .semWait .main,
    .childQuit .main 71] (init cfg) rfl
  have hi := r.invariant (fun _ _ _ h e => Step.inv h e) (init_inv cfg)
  constructor
  case left =>
    refine ⟨_, _, r, fun hu => hu.handler .main ⟨rfl, _, rfl⟩, fun tr' s' r' => ?_⟩
    exact Blocked.forever hi ⟨rfl, _, rfl⟩ r'
  case right => exact fun h => (h cfg _ _ r).handler .main ⟨rfl, _, rfl⟩

end

end Interrupts

end Pids
