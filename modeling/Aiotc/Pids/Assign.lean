import Mathlib.Data.List.Flatten
import Aiotc.Library.Run
import Aiotc.Pids.Live

-- `getEmptyProc` as a whole: which process of a kind has which objects.

open Queue

-- Those of the processes that set `taskMax` when they start.
def ProcFunc.setsTaskMax : ProcFunc → Bool
  | .rtsp    => true
  | .preview => true
  | .gat1400 => true
  | _        => false

-- What the processes of a kind have in common.
def PidOps.kind (ops : PidOps) : CStr × CStr × ProcFunc :=
  (strncpy 24 ops.name, strncpy 24 ops.subName, ops.proc)

def PidOps.ids (ops : PidOps) : List Int :=
  ops.pobjQueue.map ObjParam.id

namespace Pids

-- What the process does to its entry when it starts.
def procStart (taskMax : Int) (ops : PidOps) : PidOps :=
  let taskMax := if taskMax ≤ 0 then 1 else taskMax
  { ops with running := 1, taskMax := if ops.proc.setsTaskMax then taskMax else ops.taskMax }

-- The outcomes that a call of `getEmptyProc` depends on: `procInit`, `pid`, `semInit` and `opsNode`
-- are those of `createProcess`, `taskMax` is what the process sets while the call waits for this,
-- and `node` is that of the allocation of the object's node.
structure AssignOutcome where
  procInit : Bool := true
  pid : Int
  semInit : Bool := true
  opsNode : Bool := true
  taskMax : Option Int := none
  node : Bool := true

-- The searches and `createProcess`. The results are `pOps`, as a place in the table, and `pid`.
def findProc (obj : ObjParam) (name subName taskName : CStr) (out : AssignOutcome) (s : State) :
    Option (Option Nat × Int × State) :=
  match getOpsByName name subName taskName with
  | none     => some (none, -1, s)
  | some tmp =>
    match s.pidQueue.findIdx? (conditionByPidOps obj.id name subName tmp) with
    | some i => some (some i, -1, s)
    | none   =>
      match searchFromQueue (conditionByPidOps2 name subName tmp) s.pidQueue with
      | some ops => some (s.pidQueue.findIdx? (conditionByPidOps2 name subName tmp), ops.pid, s)
      | none     =>
        if s.ap.slaveArgs.load < SLAVE_LOAD_MAX then do
          let s' ← createProcess name subName taskName out.procInit out.pid none s
          match s'.creating[s.creating.length]? with
          | none   => return (none, -1, s')
          | some c => do
            let s' ← created s.creating.length out.semInit out.opsNode s'
            return (none, c.ops.pid, s')
        else
          some (none, -1, s)

def waitTaskMax (taskMax : Option Int) (ops : PidOps) : PidOps :=
  if ops.taskMax > 0 then ops else (taskMax.map fun m => procStart m ops).getD ops

-- Where the process is one of the table, its place there is returned.
def giveObj (obj : ObjParam) (out : AssignOutcome) (pid : Int) (s : State) : Option Nat × State :=
  let give ops := putObj2pidQue obj out.node (waitTaskMax out.taskMax ops)
  (s.pidQueue.findIdx? (conditionByPid pid), s.modify pid give)

def getEmptyProcAll (obj : ObjParam) (name subName taskName : CStr) (out : AssignOutcome)
    (s : State) : Option (Option Nat × State) := do
  let (pOps, pid, s) ← findProc obj name subName taskName out s
  return if pid > 0 then giveObj obj out pid s else (pOps, s)

-- `returned` is what a call of `getEmptyProc` has just returned that was not NULL, and the object.
structure Assigning where
  pids : State
  returned : Option (Nat × Int) := none

-- By `other` a step of main or a process that is none of the others.
inductive AssignLabel
  | getEmptyProc (obj : ObjParam) (name subName taskName : CStr) (out : AssignOutcome)
  | start (pid : Int) (taskMax : Int)
  | other (l : Label)

def Label.isOther : Label → Bool
  | .getEmptyProc ..  => false
  | .assigned ..      => false
  | .start ..         => false
  | _                 => true

namespace Assigning

def exec : AssignLabel → Assigning → Option Assigning
  | .getEmptyProc obj name subName taskName out, s => do
    let (pOps, pids) ← getEmptyProcAll obj name subName taskName out s.pids
    return { pids := pids, returned := pOps.map (·, obj.id) }
  | .start pid taskMax, s => do
    return { pids := ← s.pids.act pid (procStart taskMax) }
  | .other l, s =>
    if l.isOther then do
      return { pids := ← Pids.exec l s.pids }
    else
      none

def Step (s : Assigning) (l : AssignLabel) (s' : Assigning) : Prop :=
  exec l s = some s'

end Assigning

-- The process that was returned has the object once, and no other one of its kind has it.
def Assigning.Single (s : Assigning) : Prop :=
  ∀ r ∈ s.returned, ∃ ops ∈ s.pids.pidQueue[r.1]?, ops.ids.count r.2 = 1 ∧
    ∀ ops' ∈ s.pids.pidQueue.eraseIdx r.1, ops'.kind = ops.kind → r.2 ∉ ops'.ids

instance (s : Assigning) : Decidable s.Single :=
  inferInstanceAs (Decidable (∀ _ ∈ _, _))

-- All objects that the processes of a kind have.
def hosted (kind : CStr × CStr × ProcFunc) (pidQueue : List PidOps) : List Int :=
  pidQueue.flatMap fun ops => if ops.kind = kind then ops.ids else []

-- The object gets into the queue of the process.
def takes (out : AssignOutcome) (ops : PidOps) : Bool :=
  let ops := waitTaskMax out.taskMax ops
  ops.taskMax > 0 ∧ ops.pobjQueue.length < ops.taskMax ∧ out.node

-- A process of the kind that has load to spare.
def PidOps.isSpare (kind : CStr × CStr × ProcFunc) (ops : PidOps) : Bool :=
  ops.kind = kind ∧ ops.load < PROC_LOAD_MAX

-- The entry of the table with the pid takes the object, and no process of its kind has it, or it
-- does not take it, but has it already.
def Fits (obj : ObjParam) (out : AssignOutcome) (pid : Int) (pidQueue : List PidOps) : Prop :=
  ∀ ops ∈ getOpsByPid pid pidQueue,
    if takes out ops then obj.id ∉ hosted ops.kind pidQueue else obj.id ∈ ops.ids

instance (obj : ObjParam) (out : AssignOutcome) (pid : Int) (pidQueue : List PidOps) :
    Decidable (Fits obj out pid pidQueue) :=
  inferInstanceAs (Decidable (∀ _ ∈ _, _))

-- Load, a key and `procInit` are there for one more process.
def Affords (tmp : PidOps) (out : AssignOutcome) (ap : AiotcParams) : Prop :=
  ap.slaveArgs.load < SLAVE_LOAD_MAX ∧ 0 ≤ (getMsgKey ap.configArgs ap.slaveArgs.keyCache).1 ∧
  (tmp.procInit → out.procInit)

instance (tmp : PidOps) (out : AssignOutcome) (ap : AiotcParams) :
    Decidable (Affords tmp out ap) :=
  inferInstanceAs (Decidable (_ ∧ _))

-- There is an entry for one more process.
def Enters (out : AssignOutcome) (s : State) : Prop :=
  out.semInit ∧ out.opsNode ∧ s.pidQueue.length < s.ap.configArgs.slaveObjMax * 3

instance (out : AssignOutcome) (s : State) : Decidable (Enters out s) :=
  inferInstanceAs (Decidable (_ ∧ _))

-- A process of the kind with load to spare has the object, or the first one of these fits it, or
-- there is none of these, and where one more process can be created, this fits it.
def Unhosted (s : Assigning) : AssignLabel → Prop
  | .getEmptyProc obj name subName taskName out =>
    ∀ tmp ∈ getOpsByName name subName taskName,
      let spare :=
        s.pids.pidQueue.filter (PidOps.isSpare (strncpy 24 name, strncpy 24 subName, tmp.proc))
      (∃ ops ∈ spare, obj.id ∈ ops.ids) ∨
      (∃ ops ∈ spare.head?, Fits obj out ops.pid s.pids.pidQueue) ∨
      (spare = [] ∧ (Affords tmp out s.pids.ap → Fits obj out out.pid
        (s.pids.pidQueue ++ if Enters out s.pids then [{ tmp with pid := out.pid }] else [])))
  | _ => True

instance (s : Assigning) : (l : AssignLabel) → Decidable (Unhosted s l)
  | .getEmptyProc _ _ _ _ _ => inferInstanceAs (Decidable (∀ _ ∈ _, _))
  | .start _ _              => .isTrue trivial
  | .other _                => .isTrue trivial

structure Hosting (s : State) : Prop where
  pid      : ∀ ops ∈ s.pidQueue, 0 < ops.pid
  pending  : ∀ pid ∈ s.pending, 0 < pid
  creating : ∀ c ∈ s.creating, c.ops.pobjQueue = []
  hosted   : ∀ kind, (hosted kind s.pidQueue).Nodup

section

variable {kind : CStr × CStr × ProcFunc} {q q₁ q₂ : List PidOps} {ops : PidOps} {id : Int}

theorem mem_hosted : id ∈ hosted kind q ↔ ∃ ops ∈ q, ops.kind = kind ∧ id ∈ ops.ids := by
  simp only [hosted, List.mem_flatMap]
  constructor
  · rintro ⟨ops, hm, hi⟩
    split at hi
    case isTrue hk => exact ⟨ops, hm, hk, hi⟩
    case isFalse   => simp at hi
  · rintro ⟨ops, hm, hk, hi⟩
    exact ⟨ops, hm, by simpa [hk] using hi⟩

@[simp]
theorem hosted_append : hosted kind (q₁ ++ q₂) = hosted kind q₁ ++ hosted kind q₂ :=
  List.flatMap_append

theorem hosted_cons_self : hosted ops.kind (ops :: q) = ops.ids ++ hosted ops.kind q := by
  simp [hosted]

theorem hosted_cons_of_ne (h : ops.kind ≠ kind) : hosted kind (ops :: q) = hosted kind q := by
  simp [hosted, h]

theorem hosted_perm :
    (hosted ops.kind (q₁ ++ ops :: q₂)).Perm (ops.ids ++ hosted ops.kind (q₁ ++ q₂)) := by
  rw [hosted_append, hosted_cons_self, hosted_append, ← List.append_assoc, ← List.append_assoc]
  exact List.perm_append_comm.append_right _

theorem hosted_nodup_cons (h : (hosted ops.kind (q₁ ++ ops :: q₂)).Nodup) :
    ops.ids.Nodup ∧ ∀ id ∈ ops.ids, id ∉ hosted ops.kind (q₁ ++ q₂) := by
  obtain ⟨hi, -, hd⟩ := List.nodup_append.mp (hosted_perm.nodup_iff.mp h)
  exact ⟨hi, fun id hm hm' => hd id hm id hm' rfl⟩

-- Where processes let go of objects, or end.
theorem hosted_sublist (h : q₁.Sublist q₂) : (hosted kind q₁).Sublist (hosted kind q₂) :=
  h.flatMap _

theorem hosted_modifyFound {condition : PidOps → Bool} {f : PidOps → PidOps}
    (hk : ∀ ops, (f ops).kind = ops.kind) (hi : ∀ ops, (f ops).ids.Sublist ops.ids) :
    (hosted kind (modifyFound condition f q)).Sublist (hosted kind q) := by
  rcases modifyFound_cases condition f q with ⟨q₁, ops, q₂, rfl, -, -, hm⟩ | ⟨-, -, hm⟩
  · rw [hm, hosted_append, hosted_append]
    apply (List.Sublist.refl _).append
    by_cases ho : ops.kind = kind
    case pos =>
      subst ho
      rw [← hk ops, hosted_cons_self, hk ops, hosted_cons_self]
      exact (hi ops).append (.refl _)
    case neg => rw [hosted_cons_of_ne ho, hosted_cons_of_ne (hk ops ▸ ho)]
  · rw [hm]

end

variable {s s' : State} {pid : Int} {f : PidOps → PidOps}

theorem Hosting.of_sublist {q : List PidOps} (h : Hosting s) (hq : q.Sublist s.pidQueue) :
    Hosting { s with pidQueue := q } where
  pid ops ho  := h.pid ops (hq.subset ho)
  pending     := h.pending
  creating    := h.creating
  hosted kind := (h.hosted kind).sublist (hosted_sublist hq)

theorem Hosting.modify (h : Hosting s) (pid : Int) (hp : ∀ ops, 0 < ops.pid → 0 < (f ops).pid)
    (hk : ∀ ops, (f ops).kind = ops.kind) (hi : ∀ ops, (f ops).ids.Sublist ops.ids) :
    Hosting (s.modify pid f) where
  pid ops ho := by
    rcases modifyFound_cases (conditionByPid pid) f s.pidQueue with
      ⟨q₁, x, q₂, hq, -, -, hm⟩ | ⟨-, -, hm⟩
    · simp only [State.modify, hm] at ho
      have hx := h.pid x (by simp [hq])
      rcases List.mem_append.mp ho with ho | ho
      · exact h.pid ops (hq ▸ List.mem_append_left _ ho)
      · rcases List.mem_cons.mp ho with rfl | ho
        · exact hp x hx
        · exact h.pid ops (hq ▸ List.mem_append_right _ (.tail _ ho))
    · simp only [State.modify, hm] at ho
      exact h.pid ops ho
  pending     := h.pending
  creating    := h.creating
  hosted kind := (h.hosted kind).sublist (hosted_modifyFound hk hi)

theorem Hosting.act (h : Hosting s) (hp : ∀ ops, 0 < ops.pid → 0 < (f ops).pid)
    (hk : ∀ ops, (f ops).kind = ops.kind) (hi : ∀ ops, (f ops).ids.Sublist ops.ids)
    (e : s.act pid f = some s') : Hosting s' := by
  simp only [State.act] at e
  split at e <;> cases e
  exact h.modify _ hp hk hi

-- What is about neither the entries of the table nor those to come.
theorem Hosting.congr (h : Hosting s) (hq : s'.pidQueue = s.pidQueue)
    (hc : s'.creating = s.creating) (hr : s'.restarting = s.restarting) : Hosting s' := by
  refine ⟨hq ▸ h.pid, ?_, hc ▸ h.creating, hq ▸ h.hosted⟩
  have hp : s'.pending = s.pending := by simp only [State.pending, hc, hr]
  exact hp ▸ h.pending

theorem createProcess_hosting {name subName taskName : CStr} {procInit : Bool}
    {obj : Option ObjParam} (h : Hosting s)
    (e : createProcess name subName taskName procInit pid obj s = some s') : Hosting s' := by
  cases createProcess_step e
  case unknown => exact h
  case refused => exact h.congr rfl rfl rfl
  case fork ops msgKey keyCache ho h₀ _ _ =>
    have hempty : ∀ ops ∈ pidOps, ops.pobjQueue = [] := by decide
    refine ⟨h.pid, fun p hp => ?_, fun c hc => ?_, h.hosted⟩
    · simp only [State.pending, State.setKeyCache, List.map_append, List.map_cons, List.map_nil,
        List.mem_append, List.mem_singleton] at hp
      rcases hp with (hp | rfl) | hp
      · exact h.pending p (List.mem_append_left _ hp)
      · exact h₀
      · exact h.pending p (List.mem_append_right _ hp)
    · rcases List.mem_append.mp hc with hc | hc
      · exact h.creating c hc
      · rw [List.mem_singleton.mp hc]
        exact hempty ops (List.mem_of_find?_eq_some ho)

theorem created_hosting {i : Nat} {semInit node : Bool} (h : Hosting s)
    (e : created i semInit node s = some s') : Hosting s' := by
  have ⟨c, hc, e⟩ := Option.bind_eq_some_iff.mp e
  cases e
  have hm := List.mem_of_getElem? hc
  have hq := put2PidQueue_cases c.ops semInit node s.ap.configArgs s.pidQueue
  have hpid : 0 < c.ops.pid :=
    h.pending _ (List.mem_append_left _ (List.mem_map_of_mem (f := (·.ops.pid)) hm))
  have hi : c.ops.ids = [] := by simp [PidOps.ids, h.creating c hm]
  constructor
  case pid =>
    intro ops ho
    rcases hq with hq | hq <;> rw [hq] at ho
    · exact h.pid ops ho
    · rcases List.mem_append.mp ho with ho | ho
      · exact h.pid ops ho
      · rw [List.mem_singleton.mp ho]
        exact hpid
  case pending =>
    intro p hp
    refine h.pending p ((List.Sublist.append_right ?_ _).subset hp)
    exact (List.eraseIdx_sublist s.creating i).map _
  case creating =>
    intro c hc
    exact h.creating c ((List.eraseIdx_sublist s.creating i).subset hc)
  case hosted =>
    intro kind
    rcases hq with hq | hq <;> rw [hq]
    · exact h.hosted kind
    · simpa [hosted, hi] using h.hosted kind

theorem childQuit_hosting {quitPid tvSec : Int} (h : Hosting s)
    (e : childQuit quitPid tvSec pid s = some s') : Hosting s' := by
  obtain ⟨-, s₁, hs, rfl⟩ := childQuit_some e
  suffices h₁ : Hosting s₁ from h₁.congr rfl rfl rfl
  cases hs
  case unknown => exact h
  case stopped =>
    simp only [delOpsByPid]
    split
    · exact h
    · exact (h.of_sublist List.eraseP_sublist).congr rfl rfl rfl
  case early => exact h
  case fork h₀ _ _ =>
    refine ⟨h.pid, fun p hp => ?_, h.creating, h.hosted⟩
    simp only [State.pending, List.map_append, List.map_cons, List.map_nil,
      ← List.append_assoc, List.mem_append, List.mem_singleton] at hp
    rcases hp with hp | rfl
    · exact h.pending p (List.mem_append.mpr hp)
    · exact h₀

theorem restarted_hosting {i : Nat} (h : Hosting s) (e : restarted i s = some s') : Hosting s' := by
  have ⟨r, hr, e⟩ := Option.bind_eq_some_iff.mp e
  cases e
  have hpos : 0 < r.pid := by
    refine h.pending _ (List.mem_append_right _ ?_)
    exact List.mem_map_of_mem (f := Restarting.pid) (List.mem_of_getElem? hr)
  have hm := h.modify r.oldPid
    (f := fun ops => { ops with pid := r.pid, lastReboot := r.tvSec }) (fun _ _ => hpos)
    (fun _ => rfl) fun _ => .refl _
  refine ⟨hm.pid, fun p hp => ?_, hm.creating, hm.hosted⟩
  refine h.pending p ((List.Sublist.append_left ?_ _).subset hp)
  exact (List.eraseIdx_sublist s.restarting i).map _

theorem other_hosting {l : Label} (h : Hosting s) (hl : l.isOther) (e : exec l s = some s') :
    Hosting s' := by
  cases l
  case createProcess => exact createProcess_hosting h e
  case created       => exact created_hosting h e
  case childQuit     => exact childQuit_hosting h e
  case restarted     => exact restarted_hosting h e
  case getEmptyProc  => cases hl
  case assigned      => cases hl
  case start         => cases hl
  case stop pid      =>
    exact h.act (f := fun ops => { ops with running := 0 }) (fun _ hp => hp) (fun _ => rfl)
      (fun _ => .refl _) e
  case delObj pid id =>
    exact h.act (f := delObjFromPidQue id) (fun _ hp => hp) (fun _ => rfl)
      (fun _ => List.eraseP_sublist.map _) e
  case exit =>
    simp only [exec] at e
    split at e <;> cases e
    exact h.congr rfl rfl rfl

section

variable {obj : ObjParam} {name subName taskName : CStr} {out : AssignOutcome} {pOps : Option Nat}

-- A process that is found without a pid has the object already.
theorem findProc_hosting (h : Hosting s)
    (e : findProc obj name subName taskName out s = some (pOps, pid, s')) :
    Hosting s' ∧ (pid ≤ 0 → ∀ i ∈ pOps, ∃ ops, s'.pidQueue[i]? = some ops ∧ obj.id ∈ ops.ids) := by
  simp only [findProc] at e
  split at e
  case h_1 =>
    cases e
    exact ⟨h, by simp⟩
  case h_2 tmp _ =>
    split at e
    case h_1 i hi =>
      cases e
      refine ⟨h, fun _ j hj => ?_⟩
      cases hj
      obtain ⟨hlt, hc, -⟩ := List.findIdx?_eq_some_iff_getElem.mp hi
      simp only [conditionByPidOps, decide_eq_true_eq] at hc
      obtain ⟨o, ho⟩ := Option.isSome_iff_exists.mp hc.right
      have ⟨hm, hid⟩ := searchFromQueue_some ho
      simp only [conditionByObjId, decide_eq_true_eq] at hid
      exact ⟨_, List.getElem?_eq_getElem hlt, List.mem_map.mpr ⟨o, hm, hid⟩⟩
    case h_2 =>
      split at e
      case h_1 ops ho =>
        cases e
        have hp := h.pid ops (searchFromQueue_some ho).left
        exact ⟨h, fun hle => absurd hp (Int.not_lt.mpr hle)⟩
      case h_2 =>
        split at e
        case isFalse =>
          cases e
          exact ⟨h, by simp⟩
        case isTrue =>
          obtain ⟨s₁, hs, e⟩ := Option.bind_eq_some_iff.mp e
          have hh := createProcess_hosting h hs
          split at e
          case h_1 =>
            cases e
            exact ⟨hh, by simp⟩
          case h_2 =>
            obtain ⟨s₂, hc, e⟩ := Option.bind_eq_some_iff.mp e
            cases e
            exact ⟨created_hosting hh hc, by simp⟩

variable {ops : PidOps}

theorem putObj2pidQue_ids {node : Bool} :
    (putObj2pidQue obj node ops).ids =
      if ops.taskMax > 0 ∧ ops.pobjQueue.length < ops.taskMax ∧ node then ops.ids ++ [obj.id]
      else ops.ids := by
  simp only [putObj2pidQue]
  split
  case isTrue hle => simp [Int.not_lt.mpr hle]
  case isFalse hlt =>
    rcases putToShmQueue_cases obj ops.taskMax node ops.pobjQueue with ⟨hc, hm⟩ | ⟨hc, hm⟩
    · rw [if_pos ⟨Int.not_le.mp hlt, hc⟩]
      simp [PidOps.ids, updateLoad, hm]
    · rw [if_neg fun ht => hc ht.right]
      simp [PidOps.ids, updateLoad, hm]

theorem putObj2pidQue_fixed {node : Bool} :
    (putObj2pidQue obj node ops).pid = ops.pid ∧ (putObj2pidQue obj node ops).kind = ops.kind := by
  simp only [putObj2pidQue]
  split <;> exact ⟨rfl, rfl⟩

theorem waitTaskMax_fixed {taskMax : Option Int} :
    (waitTaskMax taskMax ops).pid = ops.pid ∧ (waitTaskMax taskMax ops).kind = ops.kind ∧
      (waitTaskMax taskMax ops).ids = ops.ids := by
  simp only [waitTaskMax]
  split
  · exact ⟨rfl, rfl, rfl⟩
  · cases taskMax <;> exact ⟨rfl, rfl, rfl⟩

theorem give_ids :
    (putObj2pidQue obj out.node (waitTaskMax out.taskMax ops)).ids =
      if takes out ops then ops.ids ++ [obj.id] else ops.ids := by
  rw [putObj2pidQue_ids, waitTaskMax_fixed.right.right]
  simp [takes]

-- The object is then single exactly if it was put to a process of a kind that did not have it.
theorem give_single {q₁ q₂ : List PidOps} (h : (hosted ops.kind (q₁ ++ ops :: q₂)).Nodup)
    {ids : List Int} (hi : ids = if takes out ops then ops.ids ++ [obj.id] else ops.ids) :
    ids.count obj.id = 1 ∧ obj.id ∉ hosted ops.kind (q₁ ++ q₂) ↔
      if takes out ops then obj.id ∉ hosted ops.kind (q₁ ++ ops :: q₂) else obj.id ∈ ops.ids := by
  have ⟨hn, hd⟩ := hosted_nodup_cons h
  subst hi
  by_cases ht : takes out ops
  case pos =>
    rw [if_pos ht, if_pos ht, hosted_perm.mem_iff]
    simp [List.count_append, List.count_eq_zero]
  case neg =>
    simp only [ht, if_false, Bool.false_eq_true]
    constructor
    · exact fun hc => List.count_pos_iff.mp (by omega)
    · exact fun hm => ⟨List.count_eq_one_of_mem hn hm, hd _ hm⟩

theorem give_nodup {q₁ q₂ : List PidOps} (h : ∀ kind, (hosted kind (q₁ ++ ops :: q₂)).Nodup)
    {ops' : PidOps} (hk : ops'.kind = ops.kind)
    (hi : ops'.ids = if takes out ops then ops.ids ++ [obj.id] else ops.ids)
    (hn : if takes out ops then obj.id ∉ hosted ops.kind (q₁ ++ ops :: q₂) else obj.id ∈ ops.ids)
    (kind : CStr × CStr × ProcFunc) : (hosted kind (q₁ ++ ops' :: q₂)).Nodup := by
  by_cases he : ops.kind = kind
  case pos =>
    subst he
    have ho := hosted_perm.nodup_iff.mp (h ops.kind)
    rw [← hk, hosted_perm.nodup_iff, hk, hi]
    split
    case isFalse => exact ho
    case isTrue ht =>
      simp only [ht, if_true, hosted_perm.mem_iff] at hn
      rw [List.append_assoc, List.singleton_append, List.perm_middle.nodup_iff]
      exact List.nodup_cons.mpr ⟨hn, ho⟩
  case neg =>
    have hs := h kind
    simp only [hosted_append, hosted_cons_of_ne he, hosted_cons_of_ne (hk ▸ he)] at hs ⊢
    exact hs

theorem single_append {pids : State} {q₁ q₂ : List PidOps} (id : Int)
    (hq : pids.pidQueue = q₁ ++ ops :: q₂) :
    Assigning.Single { pids := pids, returned := some (q₁.length, id) } ↔
      ops.ids.count id = 1 ∧ id ∉ hosted ops.kind (q₁ ++ q₂) := by
  have he : (q₁ ++ ops :: q₂).eraseIdx q₁.length = q₁ ++ q₂ := by
    simp [List.eraseIdx_append_of_length_le (Nat.le_refl _)]
  have hg : (q₁ ++ ops :: q₂)[q₁.length]? = some ops := by simp
  simp only [Assigning.Single, Option.mem_def, Option.some.injEq, forall_eq', hq, he, hg,
    exists_eq_left', mem_hosted, not_exists, not_and]

theorem single_of_mem {pids : State} {i : Nat} {id : Int} (h : Hosting pids)
    (hi : pids.pidQueue[i]? = some ops) (hm : id ∈ ops.ids) :
    Assigning.Single { pids := pids, returned := some (i, id) } := by
  have ⟨hlt, hops⟩ := List.getElem?_eq_some_iff.mp hi
  have hq : pids.pidQueue = pids.pidQueue.take i ++ ops :: pids.pidQueue.drop (i + 1) := by
    rw [← hops, List.getElem_cons_drop, List.take_append_drop]
  have hl : (pids.pidQueue.take i).length = i := by simp [Nat.le_of_lt hlt]
  have ⟨hn, hd⟩ := hosted_nodup_cons (hq ▸ h.hosted ops.kind)
  have hsingle := (single_append id hq).mpr ⟨List.count_eq_one_of_mem hn hm, hd _ hm⟩
  rw [hl] at hsingle
  exact hsingle

theorem give_hosting {ops' : PidOps} {q₁ q₂ : List PidOps} (h : Hosting s)
    (hq : s.pidQueue = q₁ ++ ops :: q₂) (hp : ops'.pid = ops.pid) (hk : ops'.kind = ops.kind)
    (hi : ops'.ids = if takes out ops then ops.ids ++ [obj.id] else ops.ids)
    (hn : if takes out ops then obj.id ∉ hosted ops.kind s.pidQueue else obj.id ∈ ops.ids) :
    Hosting { s with pidQueue := q₁ ++ ops' :: q₂ } := by
  constructor
  case pid =>
    intro x hx
    rcases List.mem_append.mp hx with hx | hx
    · exact h.pid x (hq ▸ List.mem_append_left _ hx)
    · rcases List.mem_cons.mp hx with rfl | hx
      · exact hp ▸ h.pid ops (by simp [hq])
      · exact h.pid x (hq ▸ List.mem_append_right _ (.tail _ hx))
  case pending  => exact h.pending
  case creating => exact h.creating
  case hosted   => exact give_nodup (hq ▸ h.hosted) hk hi (hq ▸ hn)

section

variable {tmp : PidOps} {q : List PidOps}

theorem conditionByPidOps2_eq :
    conditionByPidOps2 name subName tmp =
      PidOps.isSpare (strncpy 24 name, strncpy 24 subName, tmp.proc) := by
  funext ops
  simp only [conditionByPidOps2, PidOps.isSpare, sameName, PidOps.kind, Prod.mk.injEq, and_assoc,
    decide_eq_true_eq, eq_comm (a := strncpy 24 name), eq_comm (a := strncpy 24 subName)]

theorem search_spare :
    searchFromQueue (conditionByPidOps2 name subName tmp) q =
      (q.filter (PidOps.isSpare (strncpy 24 name, strncpy 24 subName, tmp.proc))).head? := by
  rw [conditionByPidOps2_eq, searchFromQueue, List.head?_filter]

theorem findIdx_hosting :
    q.findIdx? (conditionByPidOps obj.id name subName tmp) = none ↔
      ¬∃ ops ∈ q.filter (PidOps.isSpare (strncpy 24 name, strncpy 24 subName, tmp.proc)),
        obj.id ∈ ops.ids := by
  simp only [List.findIdx?_eq_none_iff, conditionByPidOps, conditionByPidOps2_eq, not_exists,
    not_and, List.mem_filter, and_imp, decide_eq_false_iff_not, searchFromQueue,
    List.find?_isSome, conditionByObjId, decide_eq_true_eq, PidOps.ids, List.mem_map]

theorem takes_setMsgKey {msgKey : Int} :
    takes out { ops with msgKey := msgKey } = takes out ops := by
  simp only [takes, waitTaskMax]
  split
  case isTrue  => rfl
  case isFalse => cases out.taskMax <;> rfl

-- The key of the new entry does not matter.
theorem fits_append_congr {ops ops' : PidOps} (hp : ops.pid = ops'.pid) (hk : ops.kind = ops'.kind)
    (hi : ops.ids = ops'.ids) (ht : takes out ops = takes out ops') :
    Fits obj out pid (q ++ [ops]) ↔ Fits obj out pid (q ++ [ops']) := by
  have hh : ∀ kind, hosted kind (q ++ [ops]) = hosted kind (q ++ [ops']) := by
    intro kind
    simp [hosted, hk, hi]
  simp only [Fits, getOpsByPid, searchFromQueue, List.find?_append, hh]
  cases q.find? (conditionByPid pid)
  case some => rfl
  case none =>
    simp only [Option.none_or, List.find?_singleton, conditionByPid, hp]
    by_cases he : pid = ops'.pid <;> simp [he, hk, hi, ht]

end

theorem put2PidQueue_enters {ops : PidOps} :
    put2PidQueue ops out.semInit out.opsNode s.ap.configArgs s.pidQueue =
      s.pidQueue ++ if Enters out s then [ops] else [] := by
  rcases out with ⟨_, _, semInit, opsNode, _, _⟩
  simp only [put2PidQueue, putToShmQueue, Enters]
  by_cases hl : (s.pidQueue.length : Int) < s.ap.configArgs.slaveObjMax * 3 <;>
    cases semInit <;> cases opsNode <;> simp [hl]

-- Where one more process is created, the condition is the one on its entry.
theorem createProcess_fits {tmp : PidOps}
    (ht : getOpsByName name subName taskName = some tmp)
    (hl : s.ap.slaveArgs.load < SLAVE_LOAD_MAX)
    (e : (do
      let s' ← createProcess name subName taskName out.procInit out.pid none s
      match s'.creating[s.creating.length]? with
      | none   => return (none, -1, s')
      | some c => do
        let s' ← created s.creating.length out.semInit out.opsNode s'
        return (none, c.ops.pid, s')) = some (pOps, pid, s')) :
    (Affords tmp out s.ap → Fits obj out out.pid
      (s.pidQueue ++ if Enters out s then [{ tmp with pid := out.pid }] else [])) ↔
      (0 < pid → Fits obj out pid s'.pidQueue) := by
  obtain ⟨s₁, hs, e⟩ := Option.bind_eq_some_iff.mp e
  simp only [createProcess, ht] at hs
  split at hs
  case isTrue hr =>
    cases hs
    simp only [State.setKeyCache, List.getElem?_eq_none (Nat.le_refl _)] at e
    cases e
    refine iff_of_true (fun ha => ?_) fun hp => absurd hp (by decide)
    rcases hr with hr | ⟨hp, hi⟩
    · exact absurd ha.right.left (Int.not_le.mpr hr)
    · exact absurd (ha.right.right hp) hi
  case isFalse hr =>
    obtain ⟨s₂, hf, hs⟩ := Option.bind_eq_some_iff.mp hs
    obtain ⟨⟨hpos, -⟩, rfl⟩ := fork_some hf
    cases hs
    have ha : Affords tmp out s.ap := by
      simp only [not_or, Int.not_lt, not_and, not_not] at hr
      exact ⟨hl, hr.left, hr.right⟩
    simp only [State.setKeyCache, List.getElem?_concat_length, created,
      Option.bind_eq_bind, Option.bind_some, Option.pure_def, Option.some.injEq,
      Prod.mk.injEq] at e
    obtain ⟨-, rfl, rfl⟩ := e
    simp only [ha, hpos, forall_const]
    have hq : ∀ ops, put2PidQueue ops out.semInit out.opsNode s.ap.configArgs s.pidQueue =
        s.pidQueue ++ if Enters out s then [ops] else [] :=
      fun _ => put2PidQueue_enters
    simp only [hq]
    split
    case isTrue  => exact fits_append_congr rfl rfl rfl takes_setMsgKey.symm
    case isFalse => rfl

-- The condition is the one on the entry to which the call puts the object.
theorem unhosted_iff {s : Assigning} (h : Hosting s.pids)
    (e : findProc obj name subName taskName out s.pids = some (pOps, pid, s')) :
    Unhosted s (.getEmptyProc obj name subName taskName out) ↔
      (0 < pid → Fits obj out pid s'.pidQueue) := by
  simp only [findProc] at e
  simp only [Unhosted]
  split at e
  case h_1 hn =>
    cases e
    simp [hn]
  case h_2 tmp ht =>
    simp only [ht, Option.mem_def, Option.some.injEq, forall_eq']
    split at e
    case h_1 i hi =>
      cases e
      have hf := mt findIdx_hosting.mpr (by rw [hi]; simp)
      exact iff_of_true (.inl (not_not.mp hf)) fun hp => absurd hp (by decide)
    case h_2 hi =>
      rw [or_iff_right (findIdx_hosting.mp hi)]
      split at e
      case h_1 ops ho =>
        cases e
        have hpos := h.pid ops (searchFromQueue_some ho).left
        rw [search_spare] at ho
        have hne : s.pids.pidQueue.filter
            (PidOps.isSpare (strncpy 24 name, strncpy 24 subName, tmp.proc)) ≠ [] := by
          intro hn
          simp [hn] at ho
        simp only [ho, hpos, hne, Option.some.injEq, exists_eq_left', false_and, or_false,
          forall_const]
      case h_2 ho =>
        rw [search_spare, List.head?_eq_none_iff] at ho
        simp only [ho, List.head?_nil, reduceCtorEq, false_and, exists_false, false_or, true_and]
        split at e
        case isFalse hl =>
          cases e
          exact iff_of_true (fun ha => absurd ha.left hl) fun hp => absurd hp (by decide)
        case isTrue hl => exact createProcess_fits ht hl e

-- A call leaves the object single exactly if it has put it where it should, and then the kinds stay
-- without duplicates.
theorem getEmptyProc_single {s s' : Assigning} (h : Hosting s.pids)
    (e : Assigning.Step s (.getEmptyProc obj name subName taskName out) s') :
    (s'.Single ↔ Unhosted s (.getEmptyProc obj name subName taskName out)) ∧
      (Unhosted s (.getEmptyProc obj name subName taskName out) → Hosting s'.pids) := by
  simp only [Assigning.Step, Assigning.exec, getEmptyProcAll, bind, Option.bind_eq_some_iff] at e
  have ⟨r, ⟨⟨pOps, pid, s₁⟩, hr, e₁⟩, e⟩ := e
  cases e₁
  cases e
  have ⟨hs, hfound⟩ := findProc_hosting h hr
  rw [unhosted_iff h hr]
  by_cases hpid : pid > 0
  case pos =>
    simp only [hpid, if_true, forall_const, giveObj, State.modify, Fits, getOpsByPid]
    rcases modifyFound_cases (conditionByPid pid)
      (fun ops => putObj2pidQue obj out.node (waitTaskMax out.taskMax ops)) s₁.pidQueue with
      ⟨q₁, ops, q₂, hq, hf, hi, hm⟩ | ⟨hf, hi, hm⟩
    case inl =>
      have hk : (putObj2pidQue obj out.node (waitTaskMax out.taskMax ops)).kind = ops.kind :=
        putObj2pidQue_fixed.right.trans waitTaskMax_fixed.right.left
      have hp : (putObj2pidQue obj out.node (waitTaskMax out.taskMax ops)).pid = ops.pid :=
        putObj2pidQue_fixed.left.trans waitTaskMax_fixed.left
      simp only [hf, hi, hm, Option.map_some, Option.mem_def, Option.some.injEq, forall_eq']
      refine ⟨?_, fun hc => give_hosting hs hq hp hk give_ids hc⟩
      rw [single_append _ rfl, hk, hq]
      exact give_single (hq ▸ hs.hosted ops.kind) give_ids
    case inr =>
      simp only [hf, hi, hm]
      exact ⟨by simp [Assigning.Single], fun _ => hs⟩
  case neg =>
    simp only [hpid, if_false, false_implies, iff_true, true_implies]
    refine ⟨?_, hs⟩
    cases hpo : pOps
    case none   => simp [Assigning.Single]
    case some i =>
      have ⟨ops, hi, hm⟩ := hfound (Int.not_lt.mp hpid) i hpo
      exact single_of_mem hs hi hm

end

theorem single_of_returned {s : Assigning} (h : s.returned = none) : s.Single := by
  simp [Assigning.Single, h]

theorem Assigning.Step.inv {s s' : Assigning} {l : AssignLabel} (h : Hosting s.pids)
    (hu : Unhosted s l) (e : Step s l s') : Hosting s'.pids ∧ s'.Single := by
  cases l
  case getEmptyProc =>
    have ⟨hs, hh⟩ := getEmptyProc_single h e
    exact ⟨hh hu, hs.mpr hu⟩
  case start pid taskMax =>
    have ⟨pids, hp, e⟩ := Option.bind_eq_some_iff.mp e
    cases e
    refine ⟨h.act (f := procStart taskMax) (fun _ hp => hp) (fun _ => rfl) ?_ hp,
      single_of_returned rfl⟩
    exact fun _ => .refl _
  case other l =>
    simp only [Step, exec] at e
    split at e
    case isFalse => cases e
    case isTrue hl =>
      have ⟨pids, hp, e⟩ := Option.bind_eq_some_iff.mp e
      cases e
      exact ⟨other_hosting h hl hp, single_of_returned rfl⟩

-- What `getEmptyProc` returns is the only process of its kind that has the object exactly if each
-- call puts its object to a process that takes it, when no process of the kind has it.
theorem single_iff_unhosted {ap : AiotcParams} {s : Assigning} {tr : List (Assigning × AssignLabel)}
    (r : Run Assigning.Step { pids := { ap := ap } } tr s) :
    Run.Always Assigning.Single tr s ↔ Run.Meets Unhosted tr := by
  have h : Hosting { ap := ap } := by
    refine ⟨by simp, by simp [State.pending], by simp, fun kind => ?_⟩
    simp [hosted]
  refine r.always_iff_meets (I := fun s => Hosting s.pids ∧ s.Single)
    (fun _ _ _ h hc e => e.inv h.left hc) (fun _ h => h.right) (fun s l s' h e hp => ?_)
    ⟨h, single_of_returned rfl⟩
  cases l
  case getEmptyProc => exact (getEmptyProc_single h.left e).left.mp hp
  all_goals trivial

section

def obj (id : Int) : ObjParam where
  id := id
  name := "gate"
  type := "camera"
  subtype := "rtsp"
  originaldata := none

-- The call for an object of a live stream, which creates the process `pid` if it finds none.
def live (id : Int) (pid : Int) (taskMax : Int) : AssignLabel :=
  .getEmptyProc (obj id) "obj" "rtsp" "live" { pid := pid, taskMax := some taskMax }

-- The second object gets to the process of the first, which is found with this again.
theorem single_iff_unhosted_witness :
    ∃ tr s, Run Assigning.Step { pids := { ap := ap } } tr s ∧
      Run.Always Assigning.Single tr s ∧ s.returned = some (0, 5) ∧
      s.pids.pidQueue.map PidOps.ids = [[5, 6]] := by
  have ⟨s, r, hs⟩ := Run.exists_partialTrace Assigning.exec
    [live 5 71 10, live 6 72 10, live 5 72 10] { pids := { ap := ap } }
    (fun s => s.returned = some (0, 5) ∧ s.pids.pidQueue.map PidOps.ids = [[5, 6]]) (by decide)
  refine ⟨_, s, r, (single_iff_unhosted r).mpr ?_, by simpa using hs⟩
  decide

-- The process that has the object is not found, as its load is 100, and another one gets it too.
theorem not_single :
    ¬∀ (ap : AiotcParams) (tr : List (Assigning × AssignLabel)) (s : Assigning),
      Run Assigning.Step { pids := { ap := ap } } tr s → s.Single := by
  intro h
  have ⟨s, r, hs⟩ := Run.exists_partialTrace Assigning.exec [live 5 71 1, live 5 72 1]
    { pids := { ap := ap } } (fun s => ¬s.Single) (by decide)
  exact absurd (h ap _ s r) (by simpa using hs)

end

end Pids
