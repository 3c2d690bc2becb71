import Aiotc.Library.Run
import Aiotc.Master.Slaves
import Aiotc.Slave.Rest

-- What a master knows of a slave after polling it.

namespace Master

-- The outcome of a poll, its time, and what the master could initialise the slave with.
structure Poll where
  ack : Option Text
  tvSec : Int
  sysOrgData : Option Text

-- A slave together with the last poll of it.
structure Polled where
  param : SlaveParam
  last : Option Poll := none

inductive Polled.Step (s : Polled) (i : Poll) : Polled → Prop
  | poll : 0 < i.tvSec → Step s i {
      param := (slaveLoad i.ack i.tvSec i.sysOrgData s.param).param
      last := some i }

-- A slave that answered is recorded online, and one that did not as offline.
structure Online (p : SlaveParam) : Prop where
  online  : p.online ≠ 0
  offline : p.offline = 0

structure Offline (p : SlaveParam) : Prop where
  online  : p.online = 0
  offline : p.offline ≠ 0

namespace Polled

variable {s s' : Polled} {i : Poll}

def Recorded (s : Polled) : Prop :=
  match s.last with
  | none   => s.param.online = 0 ∧ s.param.offline = 0
  | some i => if i.ack.isSome then Online s.param else Offline s.param

-- A slave that answers with another `systemInit` than 0 has also answered the poll before.
def Answered (s : Polled) (i : Poll) : Prop :=
  ∀ ack, i.ack = some ack → getIntValFromJson ack ["data", "systemInit"] ≠ 0 →
    ∃ j, s.last = some j ∧ j.ack.isSome

end Polled

section

variable {p : SlaveParam} {ack : Text} {tvSec : Int} {sysOrgData : Option Text}

theorem slaveLoad_noAck (h : 0 < tvSec) : Offline (slaveLoad none tvSec sysOrgData p).param := by
  simp only [slaveLoad]
  constructor
  case online  => simp
  case offline => simp only [ne_eq]; split <;> omega

theorem slaveLoad_initialised (p : SlaveParam) (tvSec : Int) (sysOrgData : Option Text)
    (h : getIntValFromJson ack ["data", "systemInit"] ≠ 0) :
    (slaveLoad (some ack) tvSec sysOrgData p).param.online = p.online ∧
    (slaveLoad (some ack) tvSec sysOrgData p).param.offline = p.offline := by
  simp only [slaveLoad, if_neg h, and_self]

theorem slaveLoad_uninitialised (h : 0 < tvSec)
    (hi : getIntValFromJson ack ["data", "systemInit"] = 0) :
    Online (slaveLoad (some ack) tvSec sysOrgData p).param := by
  simp only [slaveLoad, if_pos hi]
  constructor
  case online  => simp only [ne_eq]; split <;> omega
  case offline => simp

end

namespace Polled

-- After a poll the record is right unless the poll was answered by a slave that is initialised
-- already and the poll before was not answered.
theorem Step.recorded_iff {s s' : Polled} {i : Poll} (h : Recorded s) (e : Step s i s') :
    Recorded s' ↔ Answered s i := by
  have ⟨ht⟩ := e
  simp only [Recorded, Answered]
  cases ha : i.ack
  case none => simpa using slaveLoad_noAck ht
  case some ack =>
    simp only [Option.isSome_some, if_true, Option.some.injEq, forall_eq']
    by_cases hi : getIntValFromJson ack ["data", "systemInit"] = 0
    case pos => exact ⟨fun _ hn => absurd hi hn, fun _ => slaveLoad_uninitialised ht hi⟩
    case neg =>
      have ⟨hon, hoff⟩ := slaveLoad_initialised s.param i.tvSec i.sysOrgData hi
      simp only [hi, not_false_eq_true, forall_const, ne_eq]
      constructor
      case mp =>
        intro ⟨hon', hoff'⟩
        rw [hon] at hon'
        rw [hoff] at hoff'
        cases hl : s.last
        case none   => simp_all [Recorded]
        case some j =>
          refine ⟨j, rfl, ?_⟩
          by_contra hj
          have ho : Offline s.param := by simpa [Recorded, hl, hj] using h
          exact hon' ho.online
      case mpr =>
        intro ⟨j, hl, hj⟩
        have ho : Online s.param := by simpa [Recorded, hl, hj] using h
        exact ⟨hon.symm ▸ ho.online, hoff.symm ▸ ho.offline⟩

theorem newSlave_zero {buf : Text} {p : SlaveParam} (h : newSlave buf = some p) :
    Recorded { param := p } := by
  simp only [newSlave, bind, Option.bind_eq_some_iff, pure, Option.some.injEq] at h
  obtain ⟨_, -, _, -, _, -, rfl⟩ := h
  exact ⟨rfl, rfl⟩

-- From the slave that `addSlave` queues on, the record is right after every poll exactly if every
-- answer of an initialised slave follows on another answer.
theorem recorded_iff_answered {buf : Text} {p : SlaveParam} {tr : List (Polled × Poll)} {s : Polled}
    (h : newSlave buf = some p) (r : Run Step { param := p } tr s) :
    Run.Always Recorded tr s ↔ Run.Meets Answered tr :=
  r.always_iff_meets (fun _ _ _ h ha e => (e.recorded_iff h).mpr ha) (fun _ h => h)
    (fun _ _ _ h e hr => (e.recorded_iff h).mp hr) (newSlave_zero h)

section

def slaveText : Text :=
  some (.object [("slaveIp", .string "10.0.0.7"), ("internetIp", .string "1.2.3.4"),
    ("restPort", .number 9002), ("streamPort", .number 9003)])

def slaveParam : SlaveParam where
  ip := "10.0.0.7"
  internetIp := "1.2.3.4"
  restPort := 9002
  streamPort := 9003

-- A poll in the given second that a slave answers by its `systemInit`, or does not answer.
def pollAt (tvSec : Int) (systemInit : Option Int) : Poll where
  ack := systemInit.map fun n =>
    some (Slave.ack [("systemInit", .number n), ("load", .number 0)])
  tvSec := tvSec
  sysOrgData := none

-- A slave answers, misses two polls, and is restarted before it answers again.
theorem recorded_iff_answered_witness :
    ∃ tr s, Run Step { param := slaveParam } tr s ∧ tr.length = 6 ∧ Run.Always Recorded tr s ∧
      Online s.param := by
  have r : Run Step { param := slaveParam } _ _ :=
    .step (.poll (i := pollAt 5 (some 0)) (by decide)) <|
    .step (.poll (i := pollAt 10 (some 1)) (by decide)) <|
    .step (.poll (i := pollAt 15 none) (by decide)) <|
    .step (.poll (i := pollAt 20 none) (by decide)) <|
    .step (.poll (i := pollAt 25 (some 0)) (by decide)) <|
    .single (.poll (i := pollAt 30 (some 1)) (by decide))
  -- An answer with `systemInit` 0, or none at all
  have hzero {s : Polled} {tvSec : Int} : Answered s (pollAt tvSec (some 0)) := by
    rintro _ ⟨⟩ hn
    exact absurd rfl hn
  have hnone {s : Polled} {tvSec : Int} : Answered s (pollAt tvSec none) := by
    rintro _ ⟨⟩
  have ha := (recorded_iff_answered (show newSlave slaveText = some slaveParam from rfl) r).mpr <|
    Run.meets_cons.mpr ⟨hzero, Run.meets_cons.mpr ⟨fun _ _ _ => ⟨_, rfl, rfl⟩,
      Run.meets_cons.mpr ⟨hnone, Run.meets_cons.mpr ⟨hnone, Run.meets_cons.mpr ⟨hzero,
        Run.meets_cons.mpr ⟨fun _ _ _ => ⟨_, rfl, rfl⟩, Run.meets_nil⟩⟩⟩⟩⟩⟩
  exact ⟨_, _, r, rfl, ha, by decide, rfl⟩

-- A slave that misses one poll, and did not restart, is still offline when it answers again.
theorem not_recorded :
    ¬∀ (buf : Text) (p : SlaveParam) (tr : List (Polled × Poll)) (s : Polled),
      newSlave buf = some p → Run Step { param := p } tr s → Recorded s := by
  intro h
  have hr := h slaveText slaveParam _ _ rfl <|
    .step (.poll (i := pollAt 5 (some 0)) (by decide)) <|
    .step (.poll (i := pollAt 10 none) (by decide)) <|
    .single (.poll (i := pollAt 15 (some 1)) (by decide))
  exact absurd hr.offline (by decide)

end

end Polled

end Master
