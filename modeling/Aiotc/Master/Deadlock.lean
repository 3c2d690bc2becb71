import Aiotc.Master.Poll
import Aiotc.Master.Threads
import Aiotc.Slave.ObjIds

-- When the threads of a master wait for each other.

open Locks

namespace Master

def LoadPc.held : LoadPc → List Sem
  | .traverse _ | .detach _ _ | .offline _ _ => [.slave]
  | .detaching _ _                           => [.mobj, .slave]
  | .sleep | .loadOk                         => []

def LoadPc.waits : LoadPc → Option Sem
  | .sleep      => some .slave
  | .detach _ _ => some .mobj
  | _           => none

def ManagerPc.held : ManagerPc → List Sem
  | .traverse _ | .lowest _ | .place _ _ | .redirect _ => [.mobj]
  | .lowestHeld _                                      => [.slave, .mobj]
  | .init | .sleep                                     => []

def ManagerPc.waits : ManagerPc → Option Sem
  | .sleep    => some .mobj
  | .lowest _ => some .slave
  | _         => none

def RestThread.held (t : RestThread) : List Sem :=
  if t.inside then t.handler.sem.toList else []

def RestThread.waits (t : RestThread) : Option Sem :=
  if t.inside then none else t.handler.sem

namespace Threads

def held (s : Threads) : Tid → List Sem
  | .slaveLoad  => s.load.held
  | .objManager => s.manager.held
  | .rest i     => (s.rest[i]?.map RestThread.held).getD []

def waits (s : Threads) : Tid → Sem → Prop
  | .slaveLoad, k  => s.load.waits = some k
  | .objManager, k => s.manager.waits = some k
  | .rest i, k     => ∃ t, s.rest[i]? = some t ∧ t.waits = some k

-- A cycle of threads each of which owns a semaphore and waits for the other one.
def Deadlock (s : Threads) : Prop :=
  Locks.Deadlock s.owner s.waits

-- The two threads that wait while they own a semaphore: in `detachSlave` and in
-- `getLowestLoadSlave`.
def Detaching (s : Threads) : Prop :=
  ∃ a next, s.load = .detach a next

def Placing (s : Threads) : Prop :=
  ∃ i, s.manager = .lowest i

-- A slave that was not offline does not answer only while no object is being placed, and an object
-- without a slave is visited only while no slave is being detached.
def Ordered (s : Threads) : Label → Prop
  | .slaveLoad ack _  => ∀ a next p, s.load = .traverse (a :: next) →
    slaveAt s.slaveQueue (some a) = some p → ack = none → p.offline = 0 → ¬Placing s
  | .objManager _ _   => ∀ i o, s.manager = .traverse i → s.mobjQueue[i]? = some o →
    o.slave = none → ¬Detaching s
  | _                 => True

variable {s s' : Threads} {l : Label}

section

variable {k : Sem} {t : Tid} {ack : Option Text} {tvSec : Int}

abbrev Owned (s : Threads) : Prop :=
  Locks.Owned s.owner s.held

theorem slaveLoadThread_move (e : slaveLoadThread ack tvSec s = some s') :
    s'.manager = s.manager ∧ s'.rest = s.rest ∧
      Move s.owner .slaveLoad s.load.held s'.owner s'.load.held := by
  cases slaveLoadThread_step e
  case wait hl ho     => exact ⟨rfl, rfl, hl ▸ .wait ho⟩
  case post hl        => exact ⟨rfl, rfl, hl ▸ .post (by simp)⟩
  case detach hl _ _  => exact ⟨rfl, rfl, hl ▸ .stay⟩
  case poll hl _ _    => exact ⟨rfl, rfl, hl ▸ .stay⟩
  case waitMobj hl ho => exact ⟨rfl, rfl, hl ▸ .wait ho⟩
  case postMobj hl _  => exact ⟨rfl, rfl, hl ▸ .post (by simp)⟩
  case offline hl     => exact ⟨rfl, rfl, hl ▸ .stay⟩
  case loadOk hl      => exact ⟨rfl, rfl, hl ▸ .stay⟩

theorem held_setPlaced (i : Nat) (r : Placed) : (s.setPlaced i r).manager.held = [.mobj] := by
  simp only [setPlaced]
  split <;> rfl

theorem objManagerThread_move (e : objManagerThread ack tvSec s = some s') :
    s'.load = s.load ∧ s'.rest = s.rest ∧
      Move s.owner .objManager s.manager.held s'.owner s'.manager.held := by
  cases objManagerThread_step e
  case init            => exact ⟨rfl, rfl, .stay⟩
  case start hm        => exact ⟨rfl, rfl, hm ▸ .stay⟩
  case wait hm ho      => exact ⟨rfl, rfl, hm ▸ .wait ho⟩
  case post hm _       => exact ⟨rfl, rfl, hm ▸ .post (by simp)⟩
  case lowest hm _ _   => exact ⟨rfl, rfl, hm ▸ .stay⟩
  case visit hm _ _ _  => exact ⟨rfl, rfl, hm ▸ held_setPlaced _ _ ▸ .stay⟩
  case waitSlave hm ho => exact ⟨rfl, rfl, hm ▸ .wait ho⟩
  case postSlave hm    => exact ⟨rfl, rfl, hm ▸ .post (by simp)⟩
  case place hm _      => exact ⟨rfl, rfl, hm ▸ held_setPlaced _ _ ▸ .stay⟩
  case redirect hm     => exact ⟨rfl, rfl, hm ▸ .stay⟩
  case noText hm       => exact ⟨rfl, rfl, hm ▸ .stay⟩

theorem restThread_move {i : Nat} (e : restThread i s = some s') :
    s'.load = s.load ∧ s'.manager = s.manager ∧ ∃ t u, s.rest[i]? = some t ∧
      s'.rest = s.rest.set i u ∧ Move s.owner (.rest i) t.held s'.owner u.held := by
  cases restThread_step e
  case wait ht hh hi ho =>
    refine ⟨rfl, rfl, _, _, ht, rfl, ?_⟩
    simpa [RestThread.held, hh, hi, Handler.sem] using .wait ho
  case run ht hh hi _ =>
    refine ⟨rfl, rfl, _, _, ht, rfl, ?_⟩
    simpa [RestThread.held, hh, hi, Handler.sem] using .post (by simp)
  case free ht hh _ =>
    refine ⟨rfl, rfl, _, _, ht, rfl, ?_⟩
    simpa [RestThread.held, hh, Handler.sem] using .stay

theorem Step.owned (h : s.Owned) (e : Step s l s') : s'.Owned := by
  cases l
  case slaveLoad =>
    have ⟨hm, hr, hv⟩ := slaveLoadThread_move e
    exact h.move (t := .slaveLoad) hv fun t ht => by cases t <;> simp_all [held]
  case objManager =>
    have ⟨hl, hr, hv⟩ := objManagerThread_move e
    exact h.move (t := .objManager) hv fun t ht => by cases t <;> simp_all [held]
  case rest i =>
    have ⟨hl, hm, t, u, ht, hr, hv⟩ := restThread_move e
    have hi := (List.getElem?_eq_some_iff.mp ht).choose
    have hs : s.held (.rest i) = t.held := by
      simp only [held, ht, Option.map_some, Option.getD_some]
    have hs' : s'.held (.rest i) = u.held := by simp [held, hr, hi]
    apply h.move (t := .rest i) (hs ▸ hs' ▸ hv)
    intro t ht
    cases t
    case rest j => simp_all [held, eq_comm]
    all_goals simp_all [held]
  case request r =>
    cases e
    refine ⟨fun t k => (h.iff t k).trans (iff_of_eq (congrArg (k ∈ ·) ?_))⟩
    cases t
    case rest i =>
      simp only [held, List.getElem?_append]
      split
      case isTrue  => rfl
      case isFalse hi =>
        rw [List.getElem?_eq_none (Nat.not_lt.mp hi), List.getElem?_singleton]
        split <;> rfl
    all_goals rfl

-- The threads that wait while they own a semaphore are those two.
theorem waits_of_owner {k k' : Sem} (h : s.Owned) (ho : s.owner k = some t) (hw : s.waits t k') :
    (s.Detaching ∧ k = .slave ∧ k' = .mobj) ∨ (s.Placing ∧ k = .mobj ∧ k' = .slave) := by
  have hk := (h.iff t k).mp ho
  cases t
  case slaveLoad =>
    cases hl : s.load <;> simp [held, waits, LoadPc.held, LoadPc.waits, hl] at hk hw
    case detach a next => exact .inl ⟨⟨a, next, hl⟩, hk, hw.symm⟩
  case objManager =>
    cases hm : s.manager <;> simp [held, waits, ManagerPc.held, ManagerPc.waits, hm] at hk hw
    case lowest i => exact .inr ⟨⟨i, hm⟩, hk, hw.symm⟩
  case rest i =>
    have ⟨t, ht, hw⟩ := hw
    cases hi : t.inside <;> simp [held, RestThread.held, RestThread.waits, ht, hi] at hk hw

theorem deadlock_iff (h : s.Owned) : s.Deadlock ↔ s.Detaching ∧ s.Placing := by
  constructor
  case mpr =>
    intro ⟨⟨a, next, hl⟩, i, hm⟩
    refine .of_pair .slaveLoad .objManager .mobj .slave ?_ ?_ ?_ ?_
    · simp [waits, LoadPc.waits, hl]
    · simp [h.iff, held, ManagerPc.held, hm]
    · simp [waits, ManagerPc.waits, hm]
    · simp [h.iff, held, LoadPc.held, hl]
  case mp =>
    intro hd
    by_contra hn
    -- With only one of them around, its order of the semaphores is the order of all threads.
    by_cases hp : s.Placing
    case pos =>
      refine not_deadlock_of_rank (fun k => if k = .slave then 1 else 0) ?_ hd
      intro t k k' ho hw
      rcases waits_of_owner h ho hw with ⟨hs, -⟩ | ⟨-, rfl, rfl⟩
      · exact absurd ⟨hs, hp⟩ hn
      · decide
    case neg =>
      refine not_deadlock_of_rank (fun k => if k = .slave then 0 else 1) ?_ hd
      intro t k k' ho hw
      rcases waits_of_owner h ho hw with ⟨-, rfl, rfl⟩ | ⟨hs, -⟩
      · decide
      · exact absurd hs hp

theorem slaveLoad_detach {sysOrgData : Option Text} {p : SlaveParam} :
    (slaveLoad ack tvSec sysOrgData p).detach = true ↔ ack = none ∧ p.offline = 0 := by
  cases ack <;> simp only [slaveLoad]
  case none => simp
  case some => split <;> simp

-- The steps that start to wait in `detachSlave` and in `getLowestLoadSlave`.
theorem slaveLoadThread_detaching (e : slaveLoadThread ack tvSec s = some s') :
    s'.Detaching ↔ ∃ a next p, s.load = .traverse (a :: next) ∧
      slaveAt s.slaveQueue (some a) = some p ∧ ack = none ∧ p.offline = 0 := by
  cases slaveLoadThread_step e
  case detach hl hp hd => simpa [Detaching, hl, hp] using slaveLoad_detach.mp hd
  case poll hl hp hd =>
    have hd := mt slaveLoad_detach.mpr (Bool.eq_false_iff.mp hd)
    simpa [Detaching, hl, hp] using hd
  case wait hl _     => simp [Detaching, hl]
  case post hl       => simp [Detaching, hl]
  case waitMobj hl _ => simp [Detaching, hl]
  case postMobj hl _ => simp [Detaching, hl]
  case offline hl    => simp [Detaching, hl]
  case loadOk hl     => simp [Detaching, hl]

theorem not_placing_setPlaced (i : Nat) (r : Placed) : ¬(s.setPlaced i r).Placing := by
  simp only [Placing, setPlaced]
  split <;> simp

theorem objManagerThread_placing (e : objManagerThread ack tvSec s = some s') :
    s'.Placing ↔ ∃ i o, s.manager = .traverse i ∧ s.mobjQueue[i]? = some o ∧ o.slave = none := by
  cases objManagerThread_step e
  case lowest hm ho hs  => simpa [Placing, hm, ho] using hs
  case visit hm ho hs _ => simpa [not_placing_setPlaced, hm, ho] using hs
  case post hm ho       => simp [Placing, hm, ho]
  case place hm _       => simp [not_placing_setPlaced, hm]
  case init hm          => simp [Placing, hm]
  case start hm         => simp [Placing, hm]
  case wait hm _        => simp [Placing, hm]
  case waitSlave hm _   => simp [Placing, hm]
  case postSlave hm     => simp [Placing, hm]
  case redirect hm      => simp [Placing, hm]
  case noText hm        => simp [Placing, hm]

theorem Step.ordered_iff (h : s.Owned) (hd : ¬s.Deadlock) (e : Step s l s') :
    ¬s'.Deadlock ↔ Ordered s l := by
  rw [deadlock_iff (e.owned h)]
  rw [deadlock_iff h] at hd
  cases l
  case slaveLoad ack tvSec =>
    have ⟨hm, _⟩ := slaveLoadThread_move e
    have hp : s'.Placing ↔ s.Placing := by simp [Placing, hm]
    rw [slaveLoadThread_detaching e, hp]
    simp only [Ordered]
    grind
  case objManager ack tvSec =>
    have ⟨hl, _⟩ := objManagerThread_move e
    have hs : s'.Detaching ↔ s.Detaching := by simp [Detaching, hl]
    rw [objManagerThread_placing e, hs]
    simp only [Ordered]
    grind
  case rest i =>
    have ⟨hl, hm, _⟩ := restThread_move e
    simpa [Ordered, Detaching, Placing, hl, hm] using hd
  case request r =>
    cases e
    simpa [Ordered, Detaching, Placing] using hd

-- The threads stay free of deadlocks in exactly those runs in which the two kinds of visit above
-- do not meet.
theorem not_deadlock_iff_ordered {ap : AiotcParams} {tr : List (Threads × Label)}
    (r : Run Step { ap := ap } tr s) :
    Run.Always (¬·.Deadlock) tr s ↔ Run.Meets Ordered tr := by
  refine r.always_iff_meets (I := fun s => s.Owned ∧ ¬s.Deadlock)
    (fun _ _ _ h ho e => ⟨e.owned h.left, (e.ordered_iff h.left h.right).mpr ho⟩)
    (fun _ h => h.right) (fun _ _ _ h e hd => (e.ordered_iff h.left h.right).mp hd) ?_
  have ho : Owned { ap := ap } := .init fun t => by cases t <;> rfl
  refine ⟨ho, ?_⟩
  rw [deadlock_iff ho]
  simp [Detaching]

section

-- An object is placed: the object manager waits for the slaves while it owns the objects. No slave
-- is detached meanwhile.
def placing : List Label := [
  .slaveLoad none 5, .slaveLoad none 5, .slaveLoad none 5, .objManager none 5,
  .request (.slaveAdd Polled.slaveText true (some 8)), .rest 0, .rest 0,
  .request (.objAdd (Slave.camera 5) {}), .rest 1, .rest 1, .rest 1,
  .objManager none 10, .objManager none 10, .objManager none 10]

theorem not_deadlock_iff_ordered_witness :
    ∃ tr s, Run Step { ap := { configArgs := Slave.cfg } } tr s ∧
      Run.Always (¬·.Deadlock) tr s ∧ s.manager.held = [.slave, .mobj] := by
  have r := Run.of_partialTrace exec placing { ap := { configArgs := Slave.cfg } } rfl
  refine ⟨_, _, r, (not_deadlock_iff_ordered r).mpr ?_, rfl⟩
  iterate 3 refine Run.meets_cons.mpr ⟨by rintro _ _ _ ⟨⟩, ?_⟩
  refine Run.meets_cons.mpr ⟨by rintro _ _ ⟨⟩, ?_⟩
  iterate 7 refine Run.meets_cons.mpr ⟨trivial, ?_⟩
  iterate 3 refine Run.meets_cons.mpr ⟨by rintro _ _ _ _ _ ⟨_, _, ⟨⟩⟩, ?_⟩
  exact Run.meets_nil

-- While an object waits for its first slave, the slave is found offline.
theorem deadlock :
    ¬∀ (ap : AiotcParams) (tr : List (Threads × Label)) (s : Threads),
      Run Step { ap := ap } tr s → ¬s.Deadlock := by
  intro h
  have r := Run.of_partialTrace exec
    [.slaveLoad none 5, .slaveLoad none 5, .slaveLoad none 5, .objManager none 5,
      .request (.slaveAdd Polled.slaveText true (some 8)), .rest 0, .rest 0,
      .request (.objAdd (Slave.camera 5) {}), .rest 1, .rest 1, .rest 1,
      .slaveLoad none 10, .objManager none 10, .objManager none 10, .slaveLoad none 10]
    { ap := { configArgs := Slave.cfg } } rfl
  apply h _ _ _ r
  exact .of_pair .slaveLoad .objManager .mobj .slave rfl rfl rfl rfl

end

end

end Threads

end Master
