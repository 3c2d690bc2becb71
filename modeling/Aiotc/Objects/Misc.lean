import Mathlib.Data.Option.Basic
import Aiotc.Objects.Params
import Aiotc.Share.Queue

-- misc.cpp: adding and deleting objects and algorithms.

def conditionByObjId (id : Int) (o : ObjParam) : Bool :=
  o.id = id

def conditionBySlaveIp (slaveIp : CStr) (p : Addr × SlaveParam) : Bool :=
  slaveIp = p.2.ip

def conditionByAlgName (algName : CStr) (a : AlgParams) : Bool :=
  strncpy 32 algName = a.name

def systemInits (buf : Text) (malloc : Bool) (ap : AiotcParams) : AiotcParams :=
  { ap with sysOrgData := if malloc then some buf else none }

-- The outcomes of the allocations of `addObj` and of its `sem_init`.
structure ObjMalloc where
  task : Bool := true
  originaldata : Bool := true
  semInit : Bool := true
  objArg : Bool := true
  node : Bool := true

def initObjArg (type : CStr) (malloc : Bool) : Int :=
  if type = "camera" then
    if malloc then 0 else -1
  else
    -1

def initObjTask (buf : Text) (slaveQueue : SlaveQueue) (o : ObjParam) : ObjParam :=
  { o with task := task o.task, slave := slave o.slave }
where
  task (t : TaskParams) : TaskParams :=
    let livestream := getIntValFromJson buf ["task", "stream"]
    let capture := getIntValFromJson buf ["task", "capture"]
    let record := getIntValFromJson buf ["task", "record"]
    let preview := getStrValFromJson buf ["task", "preview"]
    { t with
      livestream := if livestream ≥ 0 then livestream else t.livestream
      capture := if capture ≥ 0 then capture else t.capture
      record := if record ≥ 0 then record else t.record
      preview := match preview with
        | some p => if p.length > 0 then strncpy 32 p else t.preview
        | none   => t.preview }
  slave (s : Ptr) : Ptr :=
    match getStrValFromJson buf ["slave", "ip"] with
    | some slaveIp =>
      match Queue.searchFromQueue (conditionBySlaveIp slaveIp) slaveQueue with
      | some p => some p.1
      | none   => s
    | none => s

-- The node that `addObj` fills in before it queues it. `none` is one of its `goto end`.
def newObj (buf : Text) (malloc : ObjMalloc) (ap : AiotcParams) : Option ObjParam := do
  let id := getIntValFromJson buf ["id"]
  let name ← getStrValFromJson buf ["name"]
  let type ← getStrValFromJson buf ["type"]
  let subtype ← getStrValFromJson buf ["data", "subtype"]
  guard ¬(id < 0)
  guard (malloc.task ∧ malloc.originaldata)
  guard malloc.semInit
  let o := initObjTask buf ap.masterArgs.slaveQueue {
    id := id
    name := strncpy 32 name
    type := strncpy 16 type
    subtype := strncpy 16 subtype
    originaldata := buf }
  guard (initObjArg type malloc.objArg = 0)
  return o

def addObj (buf : Text) (malloc : ObjMalloc) (max : Int) (ap : AiotcParams)
    (queue : List ObjParam) : List ObjParam :=
  match newObj buf malloc ap with
  | none   => queue
  | some o => (Queue.putToShmQueue o max malloc.node queue).2

def delObj (buf : Text) (queue : List ObjParam) : List ObjParam :=
  Queue.delFromQueue (conditionByObjId (getIntValFromJson buf ["id"])) queue

-- What `addAlg` and `delAlg` do to the object they find, apart from telling its slave.
def addAlg (algName : CStr) (malloc : Bool) (o : ObjParam) : ObjParam :=
  let algQueue := (Queue.putToShmQueue ⟨strncpy 32 algName⟩ 100 malloc o.task.algQueue).2
  { o with task := { o.task with algQueue := algQueue } }

def delAlg (algName : CStr) (o : ObjParam) : ObjParam :=
  let algQueue := Queue.delFromQueue (conditionByAlgName algName) o.task.algQueue
  { o with task := { o.task with algQueue := algQueue } }

-- An /obj/add body from which `addObj` makes an object if memory and the queue allow.
structure Complete (buf : Text) : Prop where
  id : 0 ≤ getIntValFromJson buf ["id"]
  name : (getStrValFromJson buf ["name"]).isSome
  type : getStrValFromJson buf ["type"] = some "camera"
  subtype : (getStrValFromJson buf ["data", "subtype"]).isSome

structure ObjMalloc.Ok (malloc : ObjMalloc) : Prop where
  task : malloc.task
  originaldata : malloc.originaldata
  semInit : malloc.semInit
  objArg : malloc.objArg
  node : malloc.node

section

variable {buf : Text} {malloc : ObjMalloc} {ap : AiotcParams} {max : Int} {q : List ObjParam}
  {o : ObjParam}

theorem pairwise_conditionByObjId (h : (q.map ObjParam.id).Nodup) (id : Int) :
    q.Pairwise fun x y => ¬(conditionByObjId id x ∧ conditionByObjId id y) := by
  refine (List.pairwise_map.mp h).imp fun hn => ?_
  simp only [conditionByObjId, decide_eq_true_eq]
  exact fun ⟨hx, hy⟩ => hn (hx.trans hy.symm)

theorem initObjArg_eq_zero {type : CStr} {m : Bool} :
    initObjArg type m = 0 ↔ type = "camera" ∧ m = true := by
  simp only [initObjArg]
  split <;> cases m <;> simp_all

-- What is known of a node that `addObj` has filled in.
structure NewObj (buf : Text) (ap : AiotcParams) (o : ObjParam) : Prop where
  id : o.id = getIntValFromJson buf ["id"]
  attachSlave : o.attachSlave = 0
  slave : o.slave = initObjTask.slave buf ap.masterArgs.slaveQueue none
  task : o.task = initObjTask.task buf {}
  originaldata : o.originaldata = buf

theorem newObj_isSome_iff :
    (newObj buf malloc ap).isSome ↔
      Complete buf ∧ malloc.task ∧ malloc.originaldata ∧ malloc.semInit ∧ malloc.objArg := by
  simp only [newObj, bind, pure, Option.isSome_iff_exists, Option.bind_eq_some_iff,
    Option.guard_eq_some', initObjArg_eq_zero, Int.not_lt]
  constructor
  case mp =>
    rintro ⟨_, name, hn, type, ht, sub, hs, _, hi, _, hm, _, hsem, _, ⟨rfl, ha⟩, -⟩
    exact ⟨⟨hi, Option.isSome_of_mem hn, ht, Option.isSome_of_mem hs⟩, hm.left, hm.right, hsem, ha⟩
  case mpr =>
    rintro ⟨⟨hi, hn, ht, hs⟩, hm, ho, hsem, ha⟩
    have ⟨name, hn⟩ := Option.isSome_iff_exists.mp hn
    have ⟨sub, hs⟩ := Option.isSome_iff_exists.mp hs
    exact ⟨_, name, hn, _, ht, sub, hs, (), hi, (), ⟨hm, ho⟩, (), hsem, (), ⟨rfl, ha⟩, rfl⟩

theorem newObj_spec (h : newObj buf malloc ap = some o) : NewObj buf ap o := by
  simp only [newObj, bind, Option.bind_eq_some_iff, pure, Option.some.injEq] at h
  obtain ⟨_, -, _, -, _, -, _, -, _, -, _, -, _, -, rfl⟩ := h
  exact ⟨rfl, rfl, rfl, rfl, rfl⟩

-- An object is posted to its slave without the member "slave" of its text, which `addObj` there
-- does not need.
theorem complete_delObjJson : Complete (delObjJson buf "slave") ↔ Complete buf := by
  constructor <;> refine fun ⟨hi, hn, ht, hs⟩ => ⟨?_, ?_, ?_, ?_⟩
  case mp.refine_1  => rwa [getIntValFromJson_delObjJson (by decide)] at hi
  case mp.refine_2  => rwa [getStrValFromJson_delObjJson (by decide)] at hn
  case mp.refine_3  => rwa [getStrValFromJson_delObjJson (by decide)] at ht
  case mp.refine_4  => rwa [getStrValFromJson_delObjJson (by decide)] at hs
  case mpr.refine_1 => rwa [getIntValFromJson_delObjJson (by decide)]
  case mpr.refine_2 => rwa [getStrValFromJson_delObjJson (by decide)]
  case mpr.refine_3 => rwa [getStrValFromJson_delObjJson (by decide)]
  case mpr.refine_4 => rwa [getStrValFromJson_delObjJson (by decide)]

theorem initObjTask_task_delObjJson (t : TaskParams) :
    initObjTask.task (delObjJson buf "slave") t = initObjTask.task buf t := by
  have h : (CStr.ofString "task").map Char.toLower ≠ (CStr.ofString "slave").map Char.toLower := by
    decide
  simp only [initObjTask.task, getIntValFromJson_delObjJson h, getStrValFromJson_delObjJson h]

theorem not_complete_none : ¬Complete none :=
  fun h => absurd h.id (by decide)

-- The two ways in which `addObj` can end.
theorem addObj_cases (buf : Text) (malloc : ObjMalloc) (max : Int) (ap : AiotcParams)
    (q : List ObjParam) :
    (Complete buf ∧ malloc.Ok ∧ q.length < max ∧
      ∃ o, NewObj buf ap o ∧ addObj buf malloc max ap q = q ++ [o]) ∨
    (¬(Complete buf ∧ malloc.Ok ∧ q.length < max) ∧ addObj buf malloc max ap q = q) := by
  simp only [addObj]
  cases ho : newObj buf malloc ap
  case none =>
    refine .inr ⟨fun ⟨hc, hm, _⟩ => ?_, rfl⟩
    have hs : (newObj buf malloc ap).isSome :=
      newObj_isSome_iff.mpr ⟨hc, hm.task, hm.originaldata, hm.semInit, hm.objArg⟩
    simp [ho] at hs
  case some o =>
    have ⟨hc, ht, hd, hs, ha⟩ := newObj_isSome_iff.mp (Option.isSome_of_mem ho)
    rcases Queue.putToShmQueue_cases o max malloc.node q with ⟨⟨hl, hn⟩, hp⟩ | ⟨hn, hp⟩
    case inl => exact .inl ⟨hc, ⟨ht, hd, hs, ha, hn⟩, hl, o, newObj_spec ho, by simp [hp]⟩
    case inr => exact .inr ⟨fun ⟨_, hm, hl⟩ => hn ⟨hl, hm.node⟩, by simp [hp]⟩

end
