import Aiotc.Master.Algs
import Aiotc.Master.Attach

-- One object of a master and its document, from which `objInitCB` restores it.

open Queue

namespace Command

-- What a command sets in the document of its object.
def stored (buf : Text) : Command → Option (List CStr × DbVal)
  | streamStart  => some (["original", "task", "stream"], .int 1)
  | streamStop   => some (["original", "task", "stream"], .int 0)
  | previewStart => do
    let type ← getStrValFromJson buf ["type"]
    guard ¬(getIntValFromJson buf ["id"] < 0)
    return (["original", "task", "preview"], .str type)
  | previewStop  => some (["original", "task", "preview"], .str "")
  | recordStart  => some (["original", "task", "record"], .int 1)
  | recordStop   => some (["original", "task", "record"], .int 0)
  | captureStart => some (["original", "task", "capture"], .int 1)
  | captureStop  => some (["original", "task", "capture"], .int 0)

end Command

namespace Master.Reload

def objAt (id : Int) (s : State) : Option ObjParam :=
  searchFromQueue (conditionByObjId id) s.ap.masterArgs.mobjQueue

def docAt (id : Int) (s : State) : Option CJson :=
  searchFromQueue (Bson.selects ["original", "id"] (.int id)) s.db.obj

-- `manage` is the visit of `mobjManager` to the object, `poll` that of `slaveLoad` to the slave at
-- `a`. `ack` is what the slave replies to the /obj/add of a redirected object.
inductive Label
  | command (cmd : Command) (buf : Text)
  | taskStart (buf : Text) (malloc : Bool)
  | taskStop (buf : Text)
  | manage (tvSec : Int) (ack : Option Text)
  | poll (a : Addr) (x : Poll)

def setObj (id : Int) (o : ObjParam) : State → State :=
  updateMaster fun mp =>
    { mp with mobjQueue := modifyFound (conditionByObjId id) (fun _ => o) mp.mobjQueue }

def storeSlaveIp (id : Int) (slaveIp : Option CStr) (s : State) : State :=
  match slaveIp with
  | some ip => updateObj (dbUpdate .set ["original", "id"] (.int id) ["original", "slave", "ip"]
    (.str ip)) s
  | none    => s

def manage (id tvSec : Int) (ack : Option Text) (s : State) : Option State := do
  let o ← objAt id s
  let r ← mobjManager tvSec s.ap.masterArgs.slaveQueue o
  let s := storeSlaveIp id r.slaveIp (setObj id r.obj s)
  return if r.redirect then updateMaster (Visit.redirect ack r.obj) s else s

-- The requests and visits that are about the object `id`.
def exec (id : Int) : Label → State → Option State
  | .command cmd buf, s      => do
    guard (getIntValFromJson buf ["id"] = id)
    let (s, _) ← cmd.request buf s
    return s
  | .taskStart buf malloc, s => do
    guard (getIntValFromJson buf ["id"] = id)
    let (s, _) ← masterRequestTaskStart buf malloc s
    return s
  | .taskStop buf, s         => do
    guard (getIntValFromJson buf ["id"] = id)
    let (s, _) ← masterRequestTaskStop buf s
    return s
  | .manage tvSec ack, s     => manage id tvSec ack s
  | .poll a x, s             => do
    let mp ← Visit.pollSlave a x s.ap.masterArgs
    return updateMaster (fun _ => mp) s

-- What a step sets in the document of the object.
def stored (id : Int) (s : State) : Label → Option (List CStr × DbVal)
  | .command cmd buf => cmd.stored buf
  | .manage tvSec _  => do
    let o ← objAt id s
    let r ← mobjManager tvSec s.ap.masterArgs.slaveQueue o
    let ip ← r.slaveIp
    return (["original", "slave", "ip"], .str ip)
  | _                => none

-- The database does what it is asked to.
def Stored (id : Int) (s : State) (l : Label) : Prop :=
  ∀ doc names val, docAt id s = some doc → stored id s l = some (names, val) →
    (Bson.update .set val names (some doc)).isSome

def Step (id : Int) (s : State) (l : Label) (s' : State) : Prop :=
  Stored id s l ∧ exec id l s = some s'

-- A text from which an object of a new id is added, with at most one document that it replaces.
structure Added (id : Int) (j : CJson) (m : State) : Prop where
  complete : Complete (some j)
  docId    : docId (document j) = some id
  obj      : ∀ o ∈ m.ap.masterArgs.mobjQueue, o.id ≠ id
  doc      : ∀ doc ∈ checkDel ["original", "id"] (.int id) m.db.obj,
    Bson.selects ["original", "id"] (.int id) doc = false
  id       : getIntValFromJson (some j) ["id"] = id
  room     : m.ap.masterArgs.mobjQueue.length < m.ap.configArgs.masterObjMax
  nodes    : (nodes m.ap.masterArgs.slaveQueue).Nodup

-- A master that has the same slaves, wherever they are, and room for the object.
structure Restarted (ap ap' : AiotcParams) : Prop where
  ips   : (ips ap').Perm (ips ap)
  nodes : (nodes ap'.masterArgs.slaveQueue).Nodup
  room  : ap'.masterArgs.mobjQueue.length < ap'.configArgs.masterObjMax

def slaveIp (ap : AiotcParams) (o : ObjParam) : Option CStr :=
  (slaveAt ap.masterArgs.slaveQueue o.slave).map SlaveParam.ip

-- What is not lost with the memory of the master: `o'` is what `o` was.
structure Same (ap ap' : AiotcParams) (o o' : ObjParam) : Prop where
  id       : o'.id = o.id
  settings : o'.task.settings = o.task.settings
  algs     : ∀ alg, alg ∈ Algs.names o' ↔ alg ∈ Algs.names o
  slaveIp  : slaveIp ap' o' = slaveIp ap o

def Reloads (id : Int) (s : State) : Prop :=
  ∃ o doc, objAt id s = some o ∧ docAt id s = some doc ∧ ∀ ap', Restarted s.ap ap' → ∃ o',
    (objInitCB doc ap').masterArgs =
      { ap'.masterArgs with mobjQueue := ap'.masterArgs.mobjQueue ++ [o'] } ∧ Same s.ap ap' o o'

-- The member that is set has no other spelling in the document.
def Spelled (id : Int) (s : State) (l : Label) : Prop :=
  ∀ doc names val, docAt id s = some doc → stored id s l = some (names, val) →
    Bson.Exact names doc

-- No algorithm is added to the object, and it does not leave its slave.
def Kept (id : Int) (s : State) : Label → Prop
  | .taskStart buf malloc => malloc = true → ∀ alg, getStrValFromJson buf ["alg"] = some alg →
    dbExsit ["original", "task", "alg"] (.str alg) s.db.obj
  | .manage tvSec _       => ∀ o p, objAt id s = some o → o.attachSlave = 0 →
    slaveAt s.ap.masterArgs.slaveQueue o.slave = some p → slaveIsNormal tvSec p ≠ -1
  | _                     => True

section

variable {doc doc' : CJson} {names path : List CStr} {cmd : Bson.Cmd} {val : DbVal} {id : Int}

-- The text of a document, as the updates change it.

def text (doc : CJson) : Text :=
  getObjBufFromJson (some doc) ["original"]

theorem getSub_text (doc : CJson) (path : List CStr) :
    getSubFromJson (text doc) path = getSubFromJson (some doc) ("original" :: path) := by
  have h : ∀ buf, getSubFromJson buf [] = buf := fun buf => by cases buf <;> rfl
  rw [text, getObjBufFromJson, Bson.getSubFromJson_cons, Bson.getSubFromJson_cons, h]

theorem getSub_text_updateDoc (ha : Bson.Apart names path) (doc : CJson) :
    getSubFromJson (text (Bson.updateDoc cmd val ("original" :: names) doc)) path =
      getSubFromJson (text doc) path := by
  have ha : Bson.Apart ("original" :: names) ("original" :: path) := Or.inr ⟨rfl, ha⟩
  rw [getSub_text, getSub_text, Bson.updateDoc]
  cases hu : Bson.update cmd val ("original" :: names) (some doc)
  case none   => rfl
  case some _ => exact Bson.update_getSub_of_apart ha hu

theorem getSub_text_set (he : Bson.Exact ("original" :: names) doc)
    (hu : (Bson.update .set val ("original" :: names) (some doc)).isSome) :
    getSubFromJson (text (Bson.updateDoc .set val ("original" :: names) doc)) names =
      some val.toJson := by
  have ⟨doc', hu⟩ := Option.isSome_iff_exists.mp hu
  have he' : Bson.Exact ("original" :: names) doc' := by
    refine Bson.update_exact (fun d hd => ?_) (.inl rfl) hu
    cases hd
    exact he
  rw [getSub_text, Bson.updateDoc, hu, Option.getD_some, Bson.getSubFromJson_eq he',
    Bson.update_get hu]
  rfl

-- What `addObj` requires of a text, and reads from it as the id.
def keys : List (List CStr) :=
  [["id"], ["name"], ["type"], ["data", "subtype"]]

theorem complete_of_keys {buf buf' : Text}
    (h : ∀ path ∈ keys, getSubFromJson buf' path = getSubFromJson buf path) (hc : Complete buf) :
    Complete buf' ∧ getIntValFromJson buf' ["id"] = getIntValFromJson buf ["id"] := by
  simp only [keys, List.forall_mem_cons] at h
  obtain ⟨hi, hn, ht, hs, -⟩ := h
  have hid : getIntValFromJson buf' ["id"] = getIntValFromJson buf ["id"] := by
    simp only [getIntValFromJson, hi]
  refine ⟨⟨?_, ?_, ?_, ?_⟩, hid⟩
  case refine_1 => exact hid ▸ hc.id
  case refine_2 => simpa only [getStrValFromJson, hn] using hc.name
  case refine_3 => simpa only [getStrValFromJson, ht] using hc.type
  case refine_4 => simpa only [getStrValFromJson, hs] using hc.subtype

-- What `initObjTask` reads of the task.
def taskPaths : List (List CStr) :=
  [["task", "stream"], ["task", "capture"], ["task", "record"], ["task", "preview"]]

def readSettings (read : List CStr → Option CJson) : Settings where
  livestream := flag ["task", "stream"]
  capture := flag ["task", "capture"]
  record := flag ["task", "record"]
  preview := match (read ["task", "preview"]).bind CJson.valuestring with
    | some p => if p.length > 0 then strncpy 32 p else []
    | none   => []
where
  flag (path : List CStr) : Int :=
    let n := ((read path).map CJson.valueint).getD (-1)
    if n ≥ 0 then n else 0

theorem settings_task (buf : Text) :
    (initObjTask.task buf {}).settings = readSettings (getSubFromJson buf) :=
  rfl

theorem readSettings_congr {read read' : List CStr → Option CJson}
    (h : ∀ path ∈ taskPaths, read' path = read path) : readSettings read' = readSettings read := by
  simp only [taskPaths, List.forall_mem_cons] at h
  obtain ⟨hs, hc, hr, hp, -⟩ := h
  simp only [readSettings, readSettings.flag, hs, hc, hr, hp]

section

variable (read : List CStr → Option CJson)

theorem readSettings_stream {n : Int} (hn : n ≥ 0) :
    readSettings (Function.update read ["task", "stream"] (some (.number n))) =
      { readSettings read with livestream := n } := by
  simp (disch := decide) only [readSettings, readSettings.flag, Function.update_self,
    Function.update_of_ne, Option.map_some, CJson.valueint, Option.getD_some, if_pos hn]

theorem readSettings_capture {n : Int} (hn : n ≥ 0) :
    readSettings (Function.update read ["task", "capture"] (some (.number n))) =
      { readSettings read with capture := n } := by
  simp (disch := decide) only [readSettings, readSettings.flag, Function.update_self,
    Function.update_of_ne, Option.map_some, CJson.valueint, Option.getD_some, if_pos hn]

theorem readSettings_record {n : Int} (hn : n ≥ 0) :
    readSettings (Function.update read ["task", "record"] (some (.number n))) =
      { readSettings read with record := n } := by
  simp (disch := decide) only [readSettings, readSettings.flag, Function.update_self,
    Function.update_of_ne, Option.map_some, CJson.valueint, Option.getD_some, if_pos hn]

theorem readSettings_preview (p : CStr) :
    readSettings (Function.update read ["task", "preview"] (some (.string p))) =
      { readSettings read with preview := strncpy 32 p } := by
  simp (disch := decide) only [readSettings, readSettings.flag, Function.update_self,
    Function.update_of_ne, Option.bind_some, CJson.valuestring]
  cases p <;> rfl

end

-- What a command sets is what it changes in the object.
structure Stores (f : TaskParams → TaskParams) (names : List CStr) (val : DbVal) : Prop where
  keys     : ∀ path ∈ keys, Bson.Apart names path
  slave    : Bson.Apart names ["slave", "ip"]
  task     : ∀ path ∈ taskPaths, path = names ∨ Bson.Apart names path
  algs     : ∀ t, (f t).algQueue = t.algQueue
  settings : ∀ read t, readSettings read = t.settings →
    readSettings (Function.update read names (some val.toJson)) = (f t).settings

theorem Stores.of_task {name : CStr} {g : Settings → Settings} {f : TaskParams → TaskParams}
    {val : DbVal} (hn : name ∈ (["stream", "capture", "record", "preview"] : List CStr))
    (hs : ∀ read, readSettings (Function.update read ["task", name] (some val.toJson)) =
      g (readSettings read))
    (hf : ∀ t, (f t).settings = g t.settings) (hq : ∀ t, (f t).algQueue = t.algQueue) :
    Stores f ["task", name] val := by
  have hall : ∀ name ∈ (["stream", "capture", "record", "preview"] : List CStr),
      (∀ path ∈ Reload.keys, Bson.Apart ["task", name] path) ∧
        Bson.Apart ["task", name] ["slave", "ip"] ∧
        ∀ path ∈ taskPaths, path = [CStr.ofString "task", name] ∨
          Bson.Apart ["task", name] path := by
    decide
  have ⟨hk, hsl, ht⟩ := hall name hn
  exact ⟨hk, hsl, ht, hq, fun read t h => by rw [hs, h, hf]⟩

theorem stores_of_command {c : Command} {buf : Text} {f : TaskParams → TaskParams}
    (hf : c.setting buf = some f) :
    ∃ names val, c.stored buf = some (("original" : CStr) :: names, val) ∧ Stores f names val := by
  cases c
  case previewStart =>
    simp only [Command.setting, bind, pure, Option.bind_eq_some_iff, Option.guard_eq_some',
      Option.some.injEq] at hf
    obtain ⟨type, ht, _, hi, rfl⟩ := hf
    refine ⟨["task", "preview"], .str type, by simp [Command.stored, ht, hi], ?_⟩
    exact .of_task (g := ({ · with preview := _ })) (by decide) (readSettings_preview · type)
      (fun _ => rfl) fun _ => rfl
  case previewStop =>
    cases hf
    exact ⟨["task", "preview"], _, rfl, .of_task (g := ({ · with preview := _ })) (by decide)
      (readSettings_preview · _) (fun _ => rfl) fun _ => rfl⟩
  case streamStart | streamStop =>
    cases hf
    exact ⟨["task", "stream"], _, rfl, .of_task (g := ({ · with livestream := _ })) (by decide)
      (readSettings_stream · (by decide)) (fun _ => rfl) fun _ => rfl⟩
  case recordStart | recordStop =>
    cases hf
    exact ⟨["task", "record"], _, rfl, .of_task (g := ({ · with record := _ })) (by decide)
      (readSettings_record · (by decide)) (fun _ => rfl) fun _ => rfl⟩
  case captureStart | captureStop =>
    cases hf
    exact ⟨["task", "capture"], _, rfl, .of_task (g := ({ · with capture := _ })) (by decide)
      (readSettings_capture · (by decide)) (fun _ => rfl) fun _ => rfl⟩

theorem request_eq {c : Command} {buf : Text} {f : TaskParams → TaskParams} (s : State)
    (hf : c.setting buf = some f) (hs : c.stored buf = some (names, val))
    (hi : ¬getIntValFromJson buf ["id"] < 0) :
    c.request buf s = requestSetting c.url f (fun _ => dbUpdate .set ["original", "id"]
      (.int (getIntValFromJson buf ["id"])) names val) buf s := by
  have hd (names : List CStr) (n : Int) : dbUpdateIntById buf names n =
      dbUpdate .set ["original", "id"] (.int (getIntValFromJson buf ["id"])) names (.int n) :=
    funext fun _ => if_neg hi
  cases c
  case previewStart =>
    simp only [Command.setting, bind, pure, Option.bind_eq_some_iff, Option.guard_eq_some',
      Option.some.injEq] at hf
    obtain ⟨type, ht, _, -, rfl⟩ := hf
    simp only [Command.stored, ht, hi, bind, pure, Option.bind_some, not_false_eq_true, guard,
      if_true, Option.some.injEq, Prod.mk.injEq] at hs
    obtain ⟨rfl, rfl⟩ := hs
    simp only [Command.request, masterRequestPreviewStart, ht, hi, if_false, Command.url]
  case previewStop =>
    cases hf
    cases hs
    rfl
  all_goals
    cases hf
    cases hs
    simp only [Command.request, masterRequestStreamStart, masterRequestStreamStop,
      masterRequestRecordStart, masterRequestRecordStop, masterRequestCaptureStart,
      masterRequestCaptureStop, requestSetting, hd, Command.url]

-- The document shows what the object has: what `initObjTask` reads in the text, and no algorithms.

def known (sq : SlaveQueue) (buf : Text) : Option CStr :=
  (getStrValFromJson buf ["slave", "ip"]).filter (· ∈ sq.map (·.2.ip))

structure Mirrors (id : Int) (sq : SlaveQueue) (o : ObjParam) (doc : CJson) : Prop where
  complete : Complete (text doc)
  id       : getIntValFromJson (text doc) ["id"] = id
  settings : readSettings (getSubFromJson (text doc)) = o.task.settings
  algs     : o.task.algQueue = []
  slave    : (slaveAt sq o.slave).map SlaveParam.ip = known sq (text doc)

structure Inv (id : Int) (s : State) : Prop where
  nodes : (nodes s.ap.masterArgs.slaveQueue).Nodup
  obj   : ∃ o doc, objAt id s = some o ∧ docAt id s = some doc ∧
    Mirrors id s.ap.masterArgs.slaveQueue o doc

-- How the object and its document change together.
structure Changed (id : Int) (f : ObjParam → ObjParam) (g : CJson → CJson) (s s' : State) :
    Prop where
  obj    : objAt id s' = (objAt id s).map f
  doc    : docAt id s' = (docAt id s).map g
  slaves : s'.ap.masterArgs.slaveQueue = s.ap.masterArgs.slaveQueue

end

section

variable {id : Int} {s s' : State} {o o' : ObjParam} {doc : CJson} {sq sq' : SlaveQueue}
  {f : ObjParam → ObjParam} {g : CJson → CJson}

theorem map_ip_slave (hn : (nodes sq).Nodup) (buf : Text) :
    (slaveAt sq (initObjTask.slave buf sq none)).map SlaveParam.ip = known sq buf := by
  simp only [initObjTask.slave, known]
  cases getStrValFromJson buf ["slave", "ip"]
  case none => rfl
  case some ip =>
    cases hs : searchFromQueue (conditionBySlaveIp ip) sq
    case none =>
      have hm : ip ∉ sq.map (·.2.ip) := by
        simpa [searchFromQueue, conditionBySlaveIp, eq_comm] using hs
      simp only [hs, Option.filter_some, decide_eq_true_eq, if_neg hm]
      rfl
    case some x =>
      obtain ⟨hx, hc⟩ := searchFromQueue_some hs
      have hip : ip = x.2.ip := by simpa [conditionBySlaveIp] using hc
      have hm : ip ∈ sq.map (·.2.ip) := List.mem_map.mpr ⟨x, hx, hip.symm⟩
      simp only [hs, Option.filter_some, decide_eq_true_eq, if_pos hm, slaveAt_of_mem hn hx]
      rw [hip, Option.map_some]

theorem Inv.changed (h : Inv id s) (hc : Changed id f g s s')
    (hm : ∀ o doc, objAt id s = some o → docAt id s = some doc →
      Mirrors id s.ap.masterArgs.slaveQueue o doc →
      Mirrors id s.ap.masterArgs.slaveQueue (f o) (g doc)) : Inv id s' := by
  have ⟨o, doc, ho, hd, hx⟩ := h.obj
  refine ⟨hc.slaves ▸ h.nodes, f o, g doc, ?_, ?_, hc.slaves ▸ hm o doc ho hd hx⟩
  · rw [hc.obj, ho, Option.map_some]
  · rw [hc.doc, hd, Option.map_some]

theorem docAt_update {cmd : Bson.Cmd} {names : List CStr} {val : DbVal}
    (ha : Bson.Apart names ["original", "id"]) (s : State) :
    docAt id (updateObj (dbUpdate cmd ["original", "id"] (.int id) names val) s) =
      (docAt id s).map (Bson.updateDoc cmd val names) := by
  rw [docAt, updateObj, Bson.dbUpdate_eq]
  exact searchFromQueue_modifyFound_self _ _ _ fun doc hd =>
    (Bson.selects_updateDoc ha _ doc).trans hd

theorem request_changed {url : Url} {buf : Text} {posts : List Post} {cmd : Bson.Cmd}
    {names : List CStr} {val : DbVal} (e : requestObj url buf f s = some (s', posts))
    (hi : getIntValFromJson buf ["id"] = id) (hf : ∀ o, (f o).id = o.id)
    (ha : Bson.Apart names ["original", "id"]) :
    Changed id f (Bson.updateDoc cmd val names) s
      (updateObj (dbUpdate cmd ["original", "id"] (.int id) names val) s') := by
  cases Algs.requestObj_eq e
  subst hi
  refine ⟨?_, docAt_update ha _, rfl⟩
  exact searchFromQueue_modifyFound_self _ f _ fun o => by simp [conditionByObjId, hf]

-- An object that was just added, and one that is restored.

theorem mirrors_of_new {buf : Text} {ap : AiotcParams} (h : NewObj buf ap o) (ht : text doc = buf)
    (hc : Complete buf) (hi : getIntValFromJson buf ["id"] = id)
    (hn : (nodes ap.masterArgs.slaveQueue).Nodup) :
    Mirrors id ap.masterArgs.slaveQueue o doc where
  complete := ht ▸ hc
  id       := ht ▸ hi
  settings := by rw [ht, h.task, settings_task]
  algs     := by rw [h.task]; rfl
  slave    := by rw [ht, h.slave, map_ip_slave hn]

theorem Added.inv {j : CJson} {m : State} (h : Added id j m) :
    Inv id (masterRequestObjAdd (some j) {} m) := by
  have hid : ¬id < 0 := by
    have hi := h.complete.id
    rw [h.id] at hi
    omega
  rcases addObj_cases (some j) {} m.ap.configArgs.masterObjMax m.ap m.ap.masterArgs.mobjQueue with
    ⟨-, -, -, o, ho, hq⟩ | ⟨hno, -⟩
  case inr => exact absurd ⟨h.complete, ⟨rfl, rfl, rfl, rfl, rfl⟩, h.room⟩ hno
  case inl =>
    rw [masterRequestObjAdd, h.id, if_neg hid, addMobj, hq]
    have ht : text (document j) = some j := rfl
    have hm := mirrors_of_new ho ht h.complete h.id h.nodes
    refine ⟨h.nodes, o, document j, ?_, ?_, hm⟩
    case refine_1 =>
      refine searchFromQueue_snoc (List.find?_eq_none.mpr fun x hx => ?_) ?_
      · simpa [conditionByObjId] using h.obj x hx
      · simp [conditionByObjId, ho.id, h.id]
    case refine_2 =>
      refine searchFromQueue_snoc (List.find?_eq_none.mpr fun x hx => ?_) ?_
      · simp [h.doc x hx]
      · exact (selects_of_docId h.docId).trans (decide_eq_true rfl)

theorem objInitCB_new {buf : Text} {ap : AiotcParams} (ht : text doc = buf) (hc : Complete buf)
    (hr : ap.masterArgs.mobjQueue.length < ap.configArgs.masterObjMax) : ∃ o, NewObj buf ap o ∧
      (objInitCB doc ap).masterArgs =
        { ap.masterArgs with mobjQueue := ap.masterArgs.mobjQueue ++ [o] } := by
  cases buf
  case none => exact absurd hc not_complete_none
  case some j =>
    rcases addObj_cases (some j) {} ap.configArgs.masterObjMax ap ap.masterArgs.mobjQueue with
      ⟨-, -, -, o, ho, hq⟩ | ⟨hno, -⟩
    case inl =>
      refine ⟨o, ho, ?_⟩
      rw [text] at ht
      simp only [objInitCB, ht, addMobj, hq]
    case inr => exact absurd ⟨hc, ⟨rfl, rfl, rfl, rfl, rfl⟩, hr⟩ hno

theorem Mirrors.of_keys {doc' : CJson} (h : Mirrors id sq o doc)
    (hk : ∀ path ∈ keys, getSubFromJson (text doc') path = getSubFromJson (text doc) path)
    (ht : readSettings (getSubFromJson (text doc')) = o'.task.settings)
    (hq : o'.task.algQueue = [])
    (hs : (slaveAt sq o'.slave).map SlaveParam.ip = known sq (text doc')) :
    Mirrors id sq o' doc' := by
  have ⟨hc, hi⟩ := complete_of_keys hk h.complete
  exact ⟨hc, hi.trans h.id, ht, hq, hs⟩

theorem Mirrors.set {t : TaskParams → TaskParams} {names : List CStr} {val : DbVal}
    (h : Mirrors id sq o doc) (hs : Stores t names val)
    (hx : Bson.Exact ("original" :: names) doc)
    (hu : (Bson.update .set val ("original" :: names) (some doc)).isSome) :
    Mirrors id sq (Cluster.changeTask t o)
      (Bson.updateDoc .set val ("original" :: names) doc) := by
  refine h.of_keys (fun path hp => getSub_text_updateDoc (hs.keys path hp) doc) ?_
    ((hs.algs o.task).trans h.algs) ?_
  case refine_1 =>
    rw [Cluster.changeTask, ← hs.settings _ _ h.settings]
    apply readSettings_congr
    intro path hp
    rcases hs.task path hp with rfl | hp
    · rw [getSub_text_set hx hu, Function.update_self]
    · rw [getSub_text_updateDoc hp, Function.update_of_ne hp.ne.symm]
  case refine_2 =>
    rw [known, getStrValFromJson, getSub_text_updateDoc hs.slave]
    exact h.slave

-- The algorithms.

-- What is read of a text.
def paths : List (List CStr) :=
  ["slave", "ip"] :: (keys ++ taskPaths)

theorem Mirrors.frame {cmd : Bson.Cmd} {names : List CStr} {val : DbVal} (h : Mirrors id sq o doc)
    (ha : ∀ path ∈ paths, Bson.Apart names path) (hs : o'.task.settings = o.task.settings)
    (hq : o'.task.algQueue = []) (hp : o'.slave = o.slave) :
    Mirrors id sq o' (Bson.updateDoc cmd val ("original" :: names) doc) := by
  have hg : ∀ path ∈ paths, getSubFromJson (text (Bson.updateDoc cmd val ("original" :: names) doc))
      path = getSubFromJson (text doc) path := fun path hp => getSub_text_updateDoc (ha path hp) doc
  simp only [paths, List.forall_mem_cons, List.forall_mem_append] at hg
  have ⟨hsl, hk, ht⟩ := hg
  apply h.of_keys hk ((readSettings_congr ht).trans (h.settings.trans hs.symm)) hq
  rw [known, getStrValFromJson, hsl, hp]
  exact h.slave

theorem request_some {buf : Text} {r : Option (State × List Post)}
    (e : (do
      guard (getIntValFromJson buf ["id"] = id)
      let (s, _) ← r
      return s) = some s') : getIntValFromJson buf ["id"] = id ∧ ∃ posts, r = some (s', posts) := by
  have ⟨_, hi, e⟩ := Option.bind_eq_some_iff.mp e
  have ⟨⟨m, posts⟩, hr, e⟩ := Option.bind_eq_some_iff.mp e
  cases e
  exact ⟨by simpa only [Option.guard_eq_some'] using hi, posts, hr⟩

theorem taskStart_cases {buf : Text} {malloc : Bool} {posts : List Post}
    (e : masterRequestTaskStart buf malloc s = some (s', posts))
    (hi : getIntValFromJson buf ["id"] = id) (h₀ : 0 ≤ id) :
    (s' = s ∧ ∀ alg, getStrValFromJson buf ["alg"] = some alg →
      dbExsit ["original", "task", "alg"] (.str alg) s.db.obj) ∨
    ∃ alg, getStrValFromJson buf ["alg"] = some alg ∧
      ¬dbExsit ["original", "task", "alg"] (.str alg) s.db.obj ∧
      Changed id (addAlg alg malloc) (updateAlgs .push (.str alg)) s s' := by
  simp only [masterRequestTaskStart] at e
  split at e
  case h_1 hn =>
    cases e
    exact .inl ⟨rfl, fun alg ha => by simp [hn] at ha⟩
  case h_2 alg ha =>
    split at e
    case isTrue hd =>
      cases e
      refine .inl ⟨rfl, fun a ha' => ?_⟩
      cases Option.some.inj (ha.symm.trans ha')
      exact hd.resolve_left (by omega)
    case isFalse hd =>
      obtain ⟨⟨m, _⟩, hr, e⟩ := Option.bind_eq_some_iff.mp e
      cases e
      subst hi
      exact .inr ⟨alg, ha, fun h => hd (.inr h), request_changed hr rfl (fun _ => rfl) (by decide)⟩

theorem taskStop_cases {buf : Text} {posts : List Post}
    (e : masterRequestTaskStop buf s = some (s', posts))
    (hi : getIntValFromJson buf ["id"] = id) :
    s' = s ∨ ∃ alg, Changed id (delAlg alg) (updateAlgs .pull (.str alg)) s s' := by
  simp only [masterRequestTaskStop] at e
  split at e
  case h_1 =>
    cases e
    exact .inl rfl
  case h_2 alg _ =>
    split at e
    case isTrue =>
      cases e
      exact .inl rfl
    case isFalse =>
      obtain ⟨⟨m, _⟩, hr, e⟩ := Option.bind_eq_some_iff.mp e
      cases e
      subst hi
      exact .inr ⟨alg, request_changed hr rfl (fun _ => rfl) (by decide)⟩

-- The slaves, at the same places and with the same ips.

structure SameIps (sq sq' : SlaveQueue) : Prop where
  nodes : nodes sq' = nodes sq
  ips   : sq'.map (·.2.ip) = sq.map (·.2.ip)
  at'   : ∀ s, (slaveAt sq' s).map SlaveParam.ip = (slaveAt sq s).map SlaveParam.ip

theorem SameIps.refl (sq : SlaveQueue) : SameIps sq sq :=
  ⟨rfl, rfl, fun _ => rfl⟩

theorem sameIps_updateSlave {a : Addr} {f : SlaveParam → SlaveParam}
    (h : ∀ p, slaveAt sq (some a) = some p → (f p).ip = p.ip) :
    SameIps sq (updateSlave a f sq) := by
  constructor
  case nodes => exact nodes_updateSlave
  case ips =>
    rcases modifyFound_cases (·.1 = a) (fun x => (x.1, f x.2)) sq with
      ⟨q₁, x, q₂, hq, hs, -, hm⟩ | ⟨-, -, hm⟩
    · have hx := h x.2 (slaveAt_some_iff.mpr ⟨x, hs, rfl⟩)
      rw [updateSlave, hm, hq]
      simp [hx]
    · rw [updateSlave, hm]
  case at' =>
    intro s
    rw [slaveAt_updateSlave]
    split
    case isFalse => rfl
    case isTrue hs =>
      subst hs
      cases hp : slaveAt sq (some a)
      case none   => rfl
      case some p => simp [h p hp]

theorem Mirrors.slaves (h : Mirrors id sq o doc) (hs : SameIps sq sq') (ht : o'.task = o.task)
    (hp : o'.slave = o.slave) : Mirrors id sq' o' doc where
  complete := h.complete
  id       := h.id
  settings := ht ▸ h.settings
  algs     := ht ▸ h.algs
  slave    := by rw [hs.at', hp, h.slave, known, known, hs.ips]

theorem poll_inv {a : Addr} {x : Poll} {mp : MasterParams} (h : Inv id s)
    (e : Visit.pollSlave a x s.ap.masterArgs = some mp) :
    Inv id (updateMaster (fun _ => mp) s) := by
  have ⟨o, doc, ho, hd, hm⟩ := h.obj
  obtain ⟨p, q, hp, rfl, hq⟩ := Visit.pollSlave_objs e
  have hs : SameIps s.ap.masterArgs.slaveQueue (updateSlave a
      (fun _ => (slaveLoad x.ack x.tvSec x.sysOrgData p).param) s.ap.masterArgs.slaveQueue) := by
    apply sameIps_updateSlave
    intro p' hp'
    cases Option.some.inj (hp.symm.trans hp')
    exact (Prod.mk.inj (Cluster.slaveLoad_endpoint x.ack x.tvSec x.sysOrgData p)).left
  obtain ⟨o', ho', he⟩ : ∃ o', searchFromQueue (conditionByObjId id) q = some o' ∧
      (o' = o ∨ o' = { o with attachSlave := 0 }) := by
    split at hq
    case isFalse => exact ⟨o, hq ▸ ho, .inl rfl⟩
    case isTrue =>
      have hc : ∀ x y, detachObjSlave s.ap.masterArgs.slaveQueue p.ip x = some y →
          conditionByObjId id y = conditionByObjId id x := by
        intro x y hy
        rcases detachObjSlave_cases hy with rfl | rfl <;> rfl
      have ⟨o', hy, ho'⟩ := searchFromQueue_mapM hc hq ho
      exact ⟨o', ho', detachObjSlave_cases hy⟩
  refine ⟨hs.nodes ▸ h.nodes, o', doc, ho', hd, ?_⟩
  rcases he with rfl | rfl
  · exact hm.slaves hs rfl rfl
  · exact hm.slaves hs rfl rfl

theorem redirect_sameIps (ack : Option Text) (o : ObjParam) (mp : MasterParams) :
    (Visit.redirect ack o mp).mobjQueue = mp.mobjQueue ∧
      SameIps mp.slaveQueue (Visit.redirect ack o mp).slaveQueue := by
  have ⟨sq, he, hs⟩ := Visit.redirect_cases ack o mp
  rw [he]
  refine ⟨rfl, ?_⟩
  rcases hs with rfl | ⟨a, rfl⟩
  · exact .refl _
  · exact sameIps_updateSlave fun p _ => by cases ack <;> rfl

-- What `mobjManager` makes of the object and its document.
theorem manage_cases {tvSec : Int} {ack : Option Text} (e : manage id tvSec ack s = some s') :
    ∃ o r, objAt id s = some o ∧ mobjManager tvSec s.ap.masterArgs.slaveQueue o = some r ∧
      objAt id s' = some r.obj ∧ docAt id s' = docAt id (storeSlaveIp id r.slaveIp s) ∧
      SameIps s.ap.masterArgs.slaveQueue s'.ap.masterArgs.slaveQueue := by
  have ⟨o, ho, e⟩ := Option.bind_eq_some_iff.mp e
  have ⟨r, hr, e⟩ := Option.bind_eq_some_iff.mp e
  cases e
  have hid : conditionByObjId id r.obj := by
    have hi := (searchFromQueue_some ho).right
    cases mobjManager_visited hr <;> exact hi
  have hset : searchFromQueue (conditionByObjId id) (modifyFound (conditionByObjId id)
      (fun _ => r.obj) s.ap.masterArgs.mobjQueue) = some r.obj := by
    rw [searchFromQueue_modifyFound_self _ _ _ fun _ _ => hid]
    exact congrArg (Option.map _) ho
  refine ⟨o, r, ho, hr, ?_⟩
  have hst : (storeSlaveIp id r.slaveIp (setObj id r.obj s)).ap = (setObj id r.obj s).ap ∧
      (storeSlaveIp id r.slaveIp (setObj id r.obj s)).db = (storeSlaveIp id r.slaveIp s).db := by
    cases r.slaveIp <;> exact ⟨rfl, rfl⟩
  split
  case isFalse =>
    refine ⟨?_, congrArg (fun db : DbParams => searchFromQueue _ db.obj) hst.right, ?_⟩
    · rw [objAt, hst.left]
      exact hset
    · rw [hst.left]
      exact .refl _
  case isTrue =>
    have ⟨hq, hs⟩ := redirect_sameIps ack r.obj
      (storeSlaveIp id r.slaveIp (setObj id r.obj s)).ap.masterArgs
    refine ⟨?_, congrArg (fun db : DbParams => searchFromQueue _ db.obj) hst.right, ?_⟩
    · rw [hst.left] at hq
      rw [objAt, updateMaster, hst.left, hq]
      exact hset
    · rw [hst.left] at hs
      rw [updateMaster, hst.left]
      exact hs

theorem manage_inv {tvSec : Int} {ack : Option Text} (h : Inv id s)
    (hk : Kept id s (.manage tvSec ack)) (hx : Spelled id s (.manage tvSec ack))
    (e : Step id s (.manage tvSec ack) s') : Inv id s' := by
  have ⟨o, doc, ho, hd, hm⟩ := h.obj
  have ⟨o', r, ho', hr, hobj, hdoc, hs⟩ := manage_cases e.right
  cases Option.some.inj (ho.symm.trans ho')
  refine ⟨hs.nodes ▸ h.nodes, r.obj, ?_⟩
  have hst (ip : CStr) (hip : r.slaveIp = some ip) : stored id s (.manage tvSec ack) =
      some ((["original", "slave", "ip"] : List CStr), DbVal.str ip) := by
    simp [stored, ho, hr, hip]
  cases mobjManager_visited hr
  case old          => exact ⟨doc, hobj, hdoc.trans hd, hm.slaves hs rfl rfl⟩
  case same         => exact ⟨doc, hobj, hdoc.trans hd, hm.slaves hs rfl rfl⟩
  case left ha hp hn => exact absurd hn (hk o _ ho ha hp)
  case new x _ hl =>
    have hx := hx doc _ _ hd (hst x.2.ip rfl)
    have hu := e.left doc _ _ hd (hst x.2.ip rfl)
    have hp := slaveAt_of_mem h.nodes (getLowestLoadSlave_some hl).left
    have hmem : x.2.ip ∈ s.ap.masterArgs.slaveQueue.map (·.2.ip) :=
      List.mem_map_of_mem (f := (·.2.ip)) (getLowestLoadSlave_some hl).left
    refine ⟨Bson.updateDoc .set (.str x.2.ip) ["original", "slave", "ip"] doc, hobj, ?_, ?_⟩
    case refine_1 =>
      rw [hdoc, storeSlaveIp, docAt_update (by decide), hd, Option.map_some]
    case refine_2 =>
      have hm : Mirrors id s.ap.masterArgs.slaveQueue { o with slave := some x.1, attachSlave := 1 }
          (Bson.updateDoc .set (.str x.2.ip) ["original", "slave", "ip"] doc) := by
        have ha : ∀ path ∈ keys, Bson.Apart ["slave", "ip"] path := by decide
        have ha' : ∀ path ∈ taskPaths, Bson.Apart ["slave", "ip"] path := by decide
        refine hm.of_keys (fun path hp => getSub_text_updateDoc (ha path hp) doc)
          ((readSettings_congr fun path hp => getSub_text_updateDoc (ha' path hp) doc).trans
            hm.settings) hm.algs ?_
        have hip : getStrValFromJson (text (Bson.updateDoc .set (.str x.2.ip)
            ["original", "slave", "ip"] doc)) ["slave", "ip"] = some x.2.ip := by
          rw [getStrValFromJson, getSub_text_set hx hu]
          rfl
        rw [known, hip, hp, Option.map_some, Option.filter_some, decide_eq_true hmem, if_pos rfl]
      exact hm.slaves hs rfl rfl

theorem command_inv {cmd : Command} {buf : Text} (h : Inv id s)
    (hx : Spelled id s (.command cmd buf)) (e : Step id s (.command cmd buf) s') : Inv id s' := by
  have ⟨hi, posts, hr⟩ := request_some e.right
  have ⟨_, doc, _, hd, hm⟩ := h.obj
  have h₀ : ¬getIntValFromJson buf ["id"] < 0 := by
    have hc := hm.complete.id
    rw [hm.id, ← hi] at hc
    omega
  rcases cmd.request_cases hr with ⟨-, rfl, -⟩ | ⟨t, _, ht, -, -⟩
  case inl => exact h
  case inr =>
    have ⟨names, val, hst, hs⟩ := stores_of_command ht
    rw [request_eq s ht hst h₀] at hr
    have ⟨⟨m', _⟩, hr, he⟩ := Option.bind_eq_some_iff.mp hr
    cases he
    rw [hi]
    have hc : Changed id (Cluster.changeTask t) (Bson.updateDoc .set val ("original" :: names)) s
        (updateObj (dbUpdate .set ["original", "id"] (.int id) ("original" :: names) val) m') :=
      request_changed hr hi (fun _ => rfl) (Or.inr ⟨rfl, hs.keys ["id"] (by decide)⟩)
    exact h.changed hc fun o d _ hd hm => hm.set hs (hx d _ _ hd hst) (e.left d _ _ hd hst)

theorem Inv.id_nonneg (h : Inv id s) : 0 ≤ id := by
  have ⟨_, _, _, _, hm⟩ := h.obj
  exact hm.id ▸ hm.complete.id

-- What a document shows of an object that is reloaded from it.
theorem Reloads.shown (h : Reloads id s) (hn : (nodes s.ap.masterArgs.slaveQueue).Nodup)
    (ho : objAt id s = some o) (hd : docAt id s = some doc) (hc : Complete (text doc)) :
    Algs.names o = [] ∧
      (slaveAt s.ap.masterArgs.slaveQueue o.slave).map SlaveParam.ip =
        known s.ap.masterArgs.slaveQueue (text doc) := by
  have ⟨_, _, ho', hd', h⟩ := h
  cases Option.some.inj (ho.symm.trans ho')
  cases Option.some.inj (hd.symm.trans hd')
  -- The same slaves, without an object.
  let ap : AiotcParams := {
    configArgs := { s.ap.configArgs with masterObjMax := 1 }
    masterArgs := { slaveQueue := s.ap.masterArgs.slaveQueue } }
  have hr : Restarted s.ap ap := ⟨.refl _, hn, Int.zero_lt_one⟩
  have ⟨o', hq, hs⟩ := h ap hr
  have ⟨n, hnew, hq'⟩ := objInitCB_new rfl hc hr.room
  have he : n = o' := by simpa using congrArg MasterParams.mobjQueue (hq'.symm.trans hq)
  subst he
  constructor
  case left =>
    apply List.eq_nil_iff_forall_not_mem.mpr
    intro alg ha
    have hm := (hs.algs alg).mpr ha
    simp [Algs.names, hnew.task, initObjTask.task] at hm
  case right =>
    have hi := hs.slaveIp
    rw [slaveIp, hnew.slave, map_ip_slave hr.nodes] at hi
    exact hi.symm

theorem taskStart_inv {buf : Text} {malloc : Bool} (h : Inv id s)
    (e : Step id s (.taskStart buf malloc) s') :
    (Kept id s (.taskStart buf malloc) → Inv id s') ∧
    (Reloads id s' → Kept id s (.taskStart buf malloc)) := by
  obtain ⟨hi, posts, hr⟩ := request_some e.right
  rcases taskStart_cases hr hi h.id_nonneg with ⟨rfl, hd⟩ | ⟨alg, ha, hd, hc⟩
  case inl => exact ⟨fun _ => h, fun _ _ => hd⟩
  case inr =>
    cases malloc
    case false =>
      refine ⟨fun _ => h.changed hc fun o d _ _ hm => ?_, fun _ hm => by cases hm⟩
      refine hm.frame (by decide) rfl ?_ rfl
      simp [addAlg, putToShmQueue, hm.algs]
    case true =>
      refine ⟨fun hk => absurd (hk rfl alg ha) hd, fun hl => ?_⟩
      obtain ⟨o, doc, ho, hdoc, hm⟩ := h.obj
      have ho' : objAt id s' = some (addAlg alg true o) := by rw [hc.obj, ho, Option.map_some]
      have hdoc' : docAt id s' = some (updateAlgs .push (.str alg) doc) := by
        rw [hc.doc, hdoc, Option.map_some]
      have hm' : Mirrors id s.ap.masterArgs.slaveQueue o (updateAlgs .push (.str alg) doc) :=
        hm.frame (by decide) rfl hm.algs rfl
      have hn := (hl.shown (hc.slaves ▸ h.nodes) ho' hdoc' hm'.complete).left
      simp [Algs.names, addAlg, putToShmQueue, hm.algs] at hn

theorem taskStop_inv {buf : Text} (h : Inv id s) (e : Step id s (.taskStop buf) s') :
    Inv id s' := by
  have ⟨hi, posts, hr⟩ := request_some e.right
  rcases taskStop_cases hr hi with rfl | ⟨alg, hc⟩
  case inl => exact h
  case inr =>
    refine h.changed hc fun o d _ _ hm => hm.frame (by decide) rfl ?_ rfl
    simp [delAlg, delFromQueue, hm.algs]

-- The slave that an object leaves is still in its document.
theorem manage_kept {tvSec : Int} {ack : Option Text} (h : Inv id s)
    (e : Step id s (.manage tvSec ack) s') (hl : Reloads id s') :
    Kept id s (.manage tvSec ack) := by
  intro o p ho ha hp hn
  have ⟨o', doc, ho', hd, hm⟩ := h.obj
  cases Option.some.inj (ho.symm.trans ho')
  have ⟨o', r, ho', hr, hobj, hdoc, hs⟩ := manage_cases e.right
  cases Option.some.inj (ho.symm.trans ho')
  have hsl : o.slave ≠ none := fun hs => by simp [hs, slaveAt] at hp
  have hne : slaveIsNormal tvSec p ≠ 1 := by
    rw [hn]
    decide
  have hr' : r = { obj := { o with slave := none } } := by
    rw [mobjManager, if_pos ⟨hsl, ha⟩, hp, Option.bind_eq_bind, Option.bind_some, if_neg hne,
      if_pos hn] at hr
    exact (Option.some.inj hr).symm
  subst hr'
  have hk := (hl.shown (hs.nodes ▸ h.nodes) hobj (hdoc.trans hd) hm.complete).right
  have hkn : known s'.ap.masterArgs.slaveQueue (text doc) = some p.ip := by
    rw [known, hs.ips, ← known, ← hm.slave, hp, Option.map_some]
  simp [hkn, slaveAt] at hk

theorem Step.inv {l : Label} (h : Inv id s) (hx : Spelled id s l) (hk : Kept id s l)
    (e : Step id s l s') : Inv id s' := by
  cases l
  case command   => exact command_inv h hx e
  case taskStart => exact (taskStart_inv h e).left hk
  case taskStop  => exact taskStop_inv h e
  case manage    => exact manage_inv h hk hx e
  case poll      =>
    have ⟨mp, hp, he⟩ := Option.bind_eq_some_iff.mp e.right
    cases he
    exact poll_inv h hp

theorem Step.kept {l : Label} (h : Inv id s) (e : Step id s l s') (hl : Reloads id s') :
    Kept id s l := by
  cases l
  case taskStart => exact (taskStart_inv h e).right hl
  case manage    => exact manage_kept h e hl
  all_goals trivial

section

-- A master with a slave that can take objects.
def online : State where
  ap := {
    configArgs := ⟨1, 100, 100, 1000, 100⟩
    masterArgs := {
      slaveQueue := [(1, { Polled.slaveParam with online := 10, systemInit := 1 })] } }

def camera : CJson :=
  .object [("id", .number 5), ("name", .string "gate"), ("type", .string "camera"),
    ("data", .object [("subtype", .string "rtsp")])]

theorem added : Added 5 camera online where
  complete := ⟨by decide, by decide, by decide, by decide⟩
  docId    := by decide
  obj      := fun _ h => absurd h List.not_mem_nil
  doc      := fun _ h => absurd h List.not_mem_nil
  id       := by decide
  room     := by decide
  nodes    := by decide

def attached : List Label :=
  [.command .streamStart (Cluster.startObj 5), .manage 12 none]

end

end

end Master.Reload
