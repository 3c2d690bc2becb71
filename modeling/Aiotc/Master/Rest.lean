import Aiotc.Master.Database
import Aiotc.Master.Slaves
import Aiotc.Slave.Rest

-- master.cpp: the requests that a master answers, and its start from the database.

-- The host and the port of a url.
abbrev Endpoint := CStr × Int

structure Post where
  endpoint : Endpoint
  url : Url
  buf : Text

def SlaveParam.endpoint (p : SlaveParam) : Endpoint :=
  (p.ip, p.restPort)

namespace Master

structure State where
  ap : AiotcParams
  db : DbParams := {}

-- As in `mobjManager` the result `none` is a dereference of a pointer that leads to no node.
def httpPostSlave (url : Url) (buf : Text) (slaveQueue : SlaveQueue) (o : ObjParam) :
    Option (List Post) :=
  if o.slave ≠ none ∧ o.attachSlave ≠ 0 then do
    let p ← slaveAt slaveQueue o.slave
    return [⟨p.endpoint, url, buf⟩]
  else
    some []

def updateMaster (f : MasterParams → MasterParams) (s : State) : State :=
  { s with ap := { s.ap with masterArgs := f s.ap.masterArgs } }

def masterRequestSlaveAdd (buf : Text) (arg : Bool) (node : Ptr) (s : State) : State :=
  match getStrValFromJson buf ["slaveIp"] with
  | none         => s
  | some slaveIp =>
    let s := updateMaster (addSlave buf arg node) s
    { s with db := { s.db with
        slave := dbWrite buf ["original", "slaveIp"] (.str slaveIp) s.db.slave } }

def masterRequestSlaveDel (buf : Text) (s : State) : State :=
  match getStrValFromJson buf ["slaveIp"] with
  | none         => s
  | some slaveIp =>
    let s := updateMaster (delSlave buf) s
    { s with db := { s.db with
        slave := dbDel ["original", "slaveIp"] (.str slaveIp) s.db.slave } }

def addMobj (buf : Text) (malloc : ObjMalloc) (ap : AiotcParams) : AiotcParams :=
  let mobjQueue := addObj buf malloc ap.configArgs.masterObjMax ap ap.masterArgs.mobjQueue
  { ap with masterArgs := { ap.masterArgs with mobjQueue := mobjQueue } }

def masterRequestObjAdd (buf : Text) (malloc : ObjMalloc) (s : State) : State :=
  let id := getIntValFromJson buf ["id"]
  if id < 0 then
    s
  else
    { ap := addMobj buf malloc s.ap,
      db := { s.db with obj := dbWrite buf ["original", "id"] (.int id) s.db.obj } }

def masterRequestObjDel (buf : Text) (s : State) : State :=
  updateMaster (fun mp => { mp with mobjQueue := delObj buf mp.mobjQueue }) s

-- The handlers below look the object up by `id`, tell its slave, and change what they found.
def requestObj (url : Url) (buf : Text) (f : ObjParam → ObjParam) (s : State) :
    Option (State × List Post) := do
  let id := getIntValFromJson buf ["id"]
  let mp := s.ap.masterArgs
  match Queue.searchFromQueue (conditionByObjId id) mp.mobjQueue with
  | none   => return (s, [])
  | some o =>
    let posts ← httpPostSlave url buf mp.slaveQueue o
    let mobjQueue := Queue.modifyFound (conditionByObjId id) f mp.mobjQueue
    return (updateMaster (fun mp => { mp with mobjQueue := mobjQueue }) s, posts)

def updateObj (f : Collection → Collection) (s : State) : State :=
  { s with db := { s.db with obj := f s.db.obj } }

def requestSetting (url : Url) (f : TaskParams → TaskParams) (db : Text → Collection → Collection)
    (buf : Text) (s : State) : Option (State × List Post) := do
  let (s, posts) ← requestObj url buf (fun o => { o with task := f o.task }) s
  return (updateObj (db buf) s, posts)

def masterRequestStreamStart : Text → State → Option (State × List Post) :=
  requestSetting .streamStart (fun t => { t with livestream := 1 }) fun buf =>
    dbUpdateIntById buf ["original", "task", "stream"] 1

def masterRequestStreamStop : Text → State → Option (State × List Post) :=
  requestSetting .streamStop (fun t => { t with livestream := 0 }) fun buf =>
    dbUpdateIntById buf ["original", "task", "stream"] 0

def masterRequestPreviewStart (buf : Text) (s : State) : Option (State × List Post) :=
  let id := getIntValFromJson buf ["id"]
  match getStrValFromJson buf ["type"] with
  | none      => some (s, [])
  | some type =>
    if id < 0 then
      some (s, [])
    else
      requestSetting .previewStart (fun t => { t with preview := strncpy 32 type })
        (fun _ => dbUpdate .set ["original", "id"] (.int id) ["original", "task", "preview"]
          (.str type)) buf s

def masterRequestPreviewStop : Text → State → Option (State × List Post) :=
  requestSetting .previewStop (fun t => { t with preview := [] }) fun buf =>
    dbUpdate .set ["original", "id"] (.int (getIntValFromJson buf ["id"]))
      ["original", "task", "preview"] (.str "")

def masterRequestRecordStart : Text → State → Option (State × List Post) :=
  requestSetting .recordStart (fun t => { t with record := 1 }) fun buf =>
    dbUpdateIntById buf ["original", "task", "record"] 1

def masterRequestRecordStop : Text → State → Option (State × List Post) :=
  requestSetting .recordStop (fun t => { t with record := 0 }) fun buf =>
    dbUpdateIntById buf ["original", "task", "record"] 0

def masterRequestCaptureStart : Text → State → Option (State × List Post) :=
  requestSetting .captureStart (fun t => { t with capture := 1 }) fun buf =>
    dbUpdateIntById buf ["original", "task", "capture"] 1

def masterRequestCaptureStop : Text → State → Option (State × List Post) :=
  requestSetting .captureStop (fun t => { t with capture := 0 }) fun buf =>
    dbUpdateIntById buf ["original", "task", "capture"] 0

def masterRequestTaskStart (buf : Text) (malloc : Bool) (s : State) : Option (State × List Post) :=
  let id := getIntValFromJson buf ["id"]
  match getStrValFromJson buf ["alg"] with
  | none         => some (s, [])
  | some algName =>
    if id < 0 ∨ dbExsit ["original", "task", "alg"] (.str algName) s.db.obj then
      some (s, [])
    else do
      let (s, posts) ← requestObj .taskStart buf (addAlg algName malloc) s
      return (updateObj (dbUpdate .push ["original", "id"] (.int id) ["original", "task", "alg"]
        (.str algName)) s, posts)

def masterRequestTaskStop (buf : Text) (s : State) : Option (State × List Post) :=
  let id := getIntValFromJson buf ["id"]
  match getStrValFromJson buf ["alg"] with
  | none         => some (s, [])
  | some algName =>
    if id < 0 then
      some (s, [])
    else do
      let (s, posts) ← requestObj .taskStop buf (delAlg algName) s
      return (updateObj (dbUpdate .pull ["original", "id"] (.int id) ["original", "task", "alg"]
        (.str algName)) s, posts)

-- The callbacks of `dbTraverse`. All allocations succeed.
def systemInitCB (doc : CJson) (ap : AiotcParams) : AiotcParams :=
  match getObjBufFromJson (some doc) ["original"] with
  | none          => ap
  | some original => systemInits (some original) true ap

def slaveInitCB (node : Addr) (doc : CJson) (ap : AiotcParams) : AiotcParams :=
  match getObjBufFromJson (some doc) ["original"] with
  | none          => ap
  | some original =>
    { ap with masterArgs := addSlave (some original) true (some node) ap.masterArgs }

def objInitCB (doc : CJson) (ap : AiotcParams) : AiotcParams :=
  match getObjBufFromJson (some doc) ["original"] with
  | none          => ap
  | some original => addMobj (some original) {} ap

-- `db` lists the documents as the cursors of `dbTraverse` return them, the node of the `i`th slave
-- is put at `node i`.
def initMasterFromDB (node : Nat → Addr) (db : DbParams) (ap : AiotcParams) : AiotcParams :=
  let ap := db.systemInit.foldl (fun ap doc => systemInitCB doc ap) ap
  let ap := db.slave.zipIdx.foldl (fun ap x => slaveInitCB (node x.2) x.1 ap) ap
  db.obj.foldl (fun ap doc => objInitCB doc ap) ap

end Master
