import Aiotc.Library.Run
import Aiotc.Objects.Misc

-- rest.cpp: the requests that a slave answers.

-- The paths of `rest_url_map` whose handlers do something. Every /obj/add/* is handled as
-- /obj/add is.
inductive Url
  | systemInit
  | systemSlave
  | objAdd
  | objDel
  | streamStart
  | streamStop
  | previewStart
  | previewStop
  | recordStart
  | recordStop
  | captureStart
  | captureStop
  | taskStart
  | taskStop
  deriving DecidableEq

namespace Slave

-- The texts that the handlers reply.
def ack (data : List (CStr × CJson)) : CJson :=
  .object [("code", .number 0), ("msg", .string "success"), ("data", .object data)]

def requestSystemInit (buf : Text) (malloc : Bool) (ap : AiotcParams) : AiotcParams :=
  let ap := if ap.configArgs.masterEnable ≠ 2 then systemInits buf malloc ap else ap
  if ap.slaveArgs.systemInit = 0 then
    { ap with slaveArgs := { ap.slaveArgs with systemInit := 1 } }
  else
    ap

-- The line that `request_system_status` and `request_obj_add` share.
def updateLoad (ap : AiotcParams) : AiotcParams :=
  let load := (ap.objQueue.length * 100 : Int).tdiv ap.configArgs.slaveObjMax
  { ap with slaveArgs := { ap.slaveArgs with load := load } }

def requestSystemStatus (ap : AiotcParams) : AiotcParams × CJson :=
  let ap := updateLoad ap
  (ap, ack [("systemInit", .number ap.slaveArgs.systemInit), ("load", .number ap.slaveArgs.load)])

def requestObjAdd (buf : Text) (malloc : ObjMalloc) (ap : AiotcParams) : AiotcParams × CJson :=
  let objQueue := addObj buf malloc ap.configArgs.slaveObjMax ap ap.objQueue
  let ap := updateLoad { ap with objQueue := objQueue }
  (ap, ack [("load", .number ap.slaveArgs.load)])

def requestObjDel (buf : Text) (ap : AiotcParams) : AiotcParams :=
  { ap with objQueue := delObj buf ap.objQueue }

-- The handlers below look the object up by `id` and change what they find.
def requestObj (id : Int) (f : ObjParam → ObjParam) (ap : AiotcParams) : AiotcParams :=
  { ap with objQueue := Queue.modifyFound (conditionByObjId id) f ap.objQueue }

def requestSetting (f : TaskParams → TaskParams) (buf : Text) (ap : AiotcParams) : AiotcParams :=
  requestObj (getIntValFromJson buf ["id"]) (fun o => { o with task := f o.task }) ap

def requestStreamStart : Text → AiotcParams → AiotcParams :=
  requestSetting fun t => { t with livestream := 1 }

def requestStreamStop : Text → AiotcParams → AiotcParams :=
  requestSetting fun t => { t with livestream := 0 }

def requestPreviewStart (buf : Text) (ap : AiotcParams) : AiotcParams :=
  let id := getIntValFromJson buf ["id"]
  match getStrValFromJson buf ["type"] with
  | none      => ap
  | some type =>
    if id < 0 then
      ap
    else
      requestSetting (fun t => { t with preview := strncpy 32 type }) buf ap

def requestPreviewStop : Text → AiotcParams → AiotcParams :=
  requestSetting fun t => { t with preview := [] }

def requestRecordStart : Text → AiotcParams → AiotcParams :=
  requestSetting fun t => { t with record := 1 }

def requestRecordStop : Text → AiotcParams → AiotcParams :=
  requestSetting fun t => { t with record := 0 }

def requestCaptureStart : Text → AiotcParams → AiotcParams :=
  requestSetting fun t => { t with capture := 1 }

def requestCaptureStop : Text → AiotcParams → AiotcParams :=
  requestSetting fun t => { t with capture := 0 }

def requestTask (f : CStr → ObjParam → ObjParam) (buf : Text) (ap : AiotcParams) : AiotcParams :=
  let id := getIntValFromJson buf ["id"]
  match getStrValFromJson buf ["alg"] with
  | none         => ap
  | some algName => if id < 0 then ap else requestObj id (f algName) ap

def requestTaskStart (buf : Text) (malloc : Bool) (ap : AiotcParams) : AiotcParams :=
  requestTask (fun algName => addAlg algName malloc) buf ap

def requestTaskStop : Text → AiotcParams → AiotcParams :=
  requestTask delAlg

-- Of `malloc` the handlers other than `requestObjAdd` use the outcome for their copy of the text
-- or for their queue node.
def rest (url : Url) (buf : Text) (malloc : ObjMalloc) (ap : AiotcParams) : AiotcParams × CJson :=
  match url with
  | .systemInit   => (requestSystemInit buf malloc.originaldata ap, ack [])
  | .systemSlave  => requestSystemStatus ap
  | .objAdd       => requestObjAdd buf malloc ap
  | .objDel       => (requestObjDel buf ap, ack [])
  | .streamStart  => (requestStreamStart buf ap, ack [])
  | .streamStop   => (requestStreamStop buf ap, ack [])
  | .previewStart => (requestPreviewStart buf ap, ack [])
  | .previewStop  => (requestPreviewStop buf ap, ack [])
  | .recordStart  => (requestRecordStart buf ap, ack [])
  | .recordStop   => (requestRecordStop buf ap, ack [])
  | .captureStart => (requestCaptureStart buf ap, ack [])
  | .captureStop  => (requestCaptureStop buf ap, ack [])
  | .taskStart    => (requestTaskStart buf malloc.node ap, ack [])
  | .taskStop     => (requestTaskStop buf ap, ack [])

-- What `restProcess` does to the shared memory, which outlives it, when it starts again.
def restProcess (ap : AiotcParams) : AiotcParams :=
  { ap with slaveArgs := { ap.slaveArgs with systemInit := 0 } }

inductive Op
  | request (url : Url) (buf : Text) (malloc : ObjMalloc)
  | restart

def exec : Op → AiotcParams → AiotcParams
  | .request url buf malloc, ap => (rest url buf malloc ap).1
  | .restart, ap                => restProcess ap

def Step (ap : AiotcParams) (op : Op) (ap' : AiotcParams) : Prop :=
  exec op ap = ap'

section

variable {ap : AiotcParams}

-- What of an object stays as it was added: all but what requests to start and stop tasks set.
def fixed (o : ObjParam) : ObjParam :=
  { o with task :=
    { o.task with livestream := 0, capture := 0, record := 0, preview := [], algQueue := [] } }

theorem requestObj_fixed {f : ObjParam → ObjParam} (hf : ∀ o, fixed (f o) = fixed o) (id : Int) :
    (requestObj id f ap).objQueue.map fixed = ap.objQueue.map fixed :=
  Queue.map_modifyFound hf

theorem requestSetting_fixed {f : TaskParams → TaskParams} {buf : Text}
    (hf : ∀ o : ObjParam, fixed { o with task := f o.task } = fixed o) :
    (requestSetting f buf ap).objQueue.map fixed = ap.objQueue.map fixed :=
  requestObj_fixed hf _

theorem requestTask_fixed {f : CStr → ObjParam → ObjParam} (hf : ∀ a o, fixed (f a o) = fixed o)
    (buf : Text) : (requestTask f buf ap).objQueue.map fixed = ap.objQueue.map fixed := by
  simp only [requestTask]
  split
  case h_1 => rfl
  case h_2 =>
    split
    · rfl
    · exact requestObj_fixed (hf _) _

theorem requestPreviewStart_fixed (buf : Text) :
    (requestPreviewStart buf ap).objQueue.map fixed = ap.objQueue.map fixed := by
  simp only [requestPreviewStart]
  split
  case h_1 => rfl
  case h_2 =>
    split
    · rfl
    · apply requestSetting_fixed
      exact fun _ => rfl

theorem requestSystemInit_fixed (buf : Text) (malloc : Bool) :
    (requestSystemInit buf malloc ap).objQueue.map fixed = ap.objQueue.map fixed := by
  simp only [requestSystemInit]
  split <;> split <;> rfl

theorem rest_fixed {url : Url} (ha : url ≠ .objAdd) (hd : url ≠ .objDel) (buf : Text)
    (malloc : ObjMalloc) :
    (rest url buf malloc ap).1.objQueue.map fixed = ap.objQueue.map fixed := by
  cases url
  case objAdd       => exact absurd rfl ha
  case objDel       => exact absurd rfl hd
  case systemInit   => exact requestSystemInit_fixed _ _
  case systemSlave  => rfl
  case previewStart => exact requestPreviewStart_fixed _
  case taskStart    => exact requestTask_fixed (f := (addAlg · malloc.node)) (fun _ _ => rfl) _
  case taskStop     => exact requestTask_fixed (f := delAlg) (fun _ _ => rfl) _
  all_goals
    apply requestSetting_fixed
    exact fun _ => rfl

end

end Slave
