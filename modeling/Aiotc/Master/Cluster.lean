import Mathlib.Logic.Function.Basic
import Aiotc.Library.Run
import Aiotc.Master.Rest

-- A master and the slaves that its posts reach.

-- The task commands of /obj/*.
inductive Command
  | streamStart
  | streamStop
  | previewStart
  | previewStop
  | recordStart
  | recordStop
  | captureStart
  | captureStop

namespace Command

def request : Command → Text → Master.State → Option (Master.State × List Post)
  | streamStart  => Master.masterRequestStreamStart
  | streamStop   => Master.masterRequestStreamStop
  | previewStart => Master.masterRequestPreviewStart
  | previewStop  => Master.masterRequestPreviewStop
  | recordStart  => Master.masterRequestRecordStart
  | recordStop   => Master.masterRequestRecordStop
  | captureStart => Master.masterRequestCaptureStart
  | captureStop  => Master.masterRequestCaptureStop

def url : Command → Url
  | streamStart  => .streamStart
  | streamStop   => .streamStop
  | previewStart => .previewStart
  | previewStop  => .previewStop
  | recordStart  => .recordStart
  | recordStop   => .recordStop
  | captureStart => .captureStart
  | captureStop  => .captureStop

-- What a command does to the object it is for. `none` is a command that is ignored.
def setting (buf : Text) : Command → Option (TaskParams → TaskParams)
  | streamStart  => some fun t => { t with livestream := 1 }
  | streamStop   => some fun t => { t with livestream := 0 }
  | previewStart => do
    let type ← getStrValFromJson buf ["type"]
    guard ¬(getIntValFromJson buf ["id"] < 0)
    return fun t => { t with preview := strncpy 32 type }
  | previewStop  => some fun t => { t with preview := [] }
  | recordStart  => some fun t => { t with record := 1 }
  | recordStop   => some fun t => { t with record := 0 }
  | captureStart => some fun t => { t with capture := 1 }
  | captureStop  => some fun t => { t with capture := 0 }

end Command

structure Cluster where
  master : Master.State
  slaves : Endpoint → AiotcParams

namespace Cluster

def slaveQueue (c : Cluster) : SlaveQueue :=
  c.master.ap.masterArgs.slaveQueue

def mobjQueue (c : Cluster) : List ObjParam :=
  c.master.ap.masterArgs.mobjQueue

def updateMaster (f : MasterParams → MasterParams) (c : Cluster) : Cluster :=
  { c with master := Master.updateMaster f c.master }

-- A post that arrives is handled by its slave at once, and answered.
def deliver (malloc : ObjMalloc) (p : Post) (c : Cluster) : Cluster × CJson :=
  let (ap, ack) := Slave.rest p.url p.buf malloc (c.slaves p.endpoint)
  ({ c with slaves := Function.update c.slaves p.endpoint ap }, ack)

-- `up` tells if the slave that is posted to or polled can be reached and, of a post, if its text
-- arrives whole (with its NUL it fits in the 1024 bytes of `request_cb`). `malloc` are the outcomes
-- of the allocations there (for `objAdd` and `slaveAdd` at the master). `manage` is the visit of
-- `mobjManager` to the object at `i`, `poll` that of `slaveLoad` to the slave at `a`.
inductive Label
  | slaveAdd (buf : Text) (arg : Bool) (node : Ptr)
  | objAdd (buf : Text) (malloc : ObjMalloc)
  | command (cmd : Command) (buf : Text) (up : Bool)
  | manage (i : Nat) (tvSec : Int) (up : Bool) (malloc : ObjMalloc)
  | poll (a : Addr) (tvSec : Int) (up : Bool) (malloc : ObjMalloc)
  | restart (e : Endpoint)

def command (cmd : Command) (buf : Text) (up : Bool) (c : Cluster) : Option Cluster := do
  let (m, posts) ← cmd.request buf c.master
  let c := { c with master := m }
  return if up then posts.foldl (fun c p => (deliver {} p c).1) c else c

-- The end of `mobjManager`, for an object that is redirected.
def redirect (up : Bool) (malloc : ObjMalloc) (o : ObjParam) (c : Cluster) : Option Cluster := do
  let a ← o.slave
  let p ← Master.slaveAt c.slaveQueue o.slave
  match Master.redirectText o with
  | none   => return c
  | some j =>
    if up then
      let (c, ack) := deliver malloc ⟨p.endpoint, .objAdd, some j⟩ c
      let load := Master.redirectLoad (some (some ack))
      return c.updateMaster fun mp =>
        { mp with slaveQueue := Master.updateSlave a load mp.slaveQueue }
    else
      return c

def manage (i : Nat) (tvSec : Int) (up : Bool) (malloc : ObjMalloc) (c : Cluster) :
    Option Cluster := do
  let o ← c.mobjQueue[i]?
  let r ← Master.mobjManager tvSec c.slaveQueue o
  let c := c.updateMaster fun mp => { mp with mobjQueue := mp.mobjQueue.set i r.obj }
  let c := match r.slaveIp with
    | none    => c
    | some ip => { c with master := Master.updateObj (dbUpdate .set ["original", "id"] (.int o.id)
        ["original", "slave", "ip"] (.str ip)) c.master }
  if r.redirect then redirect up malloc r.obj c else return c

-- What `httpGet` of /system/slave leaves in `ack`.
def status (up : Bool) (malloc : ObjMalloc) (p : SlaveParam) (c : Cluster) :
    Cluster × Option Text :=
  if up then
    let (c, ack) := deliver malloc ⟨p.endpoint, .systemSlave, none⟩ c
    (c, some (some ack))
  else
    (c, none)

def poll (a : Addr) (tvSec : Int) (up : Bool) (malloc : ObjMalloc) (c : Cluster) :
    Option Cluster := do
  let p ← Master.slaveAt c.slaveQueue (some a)
  let (c, ack) := status up malloc p c
  let r := Master.slaveLoad ack tvSec c.master.ap.sysOrgData p
  let mp := c.master.ap.masterArgs
  let mp ← (if r.detach then Master.detachSlave p mp else some mp)
  let slaveQueue := Master.updateSlave a (fun _ => r.param) mp.slaveQueue
  let c := c.updateMaster fun _ => { mp with slaveQueue := slaveQueue }
  return match r.post with
    | some buf => if up then (deliver malloc ⟨p.endpoint, .systemInit, buf⟩ c).1 else c
    | none     => c

def exec : Label → Cluster → Option Cluster
  | .slaveAdd buf arg node, c       =>
    some { c with master := Master.masterRequestSlaveAdd buf arg node c.master }
  | .objAdd buf malloc, c           =>
    some { c with master := Master.masterRequestObjAdd buf malloc c.master }
  | .command cmd buf up, c          => command cmd buf up c
  | .manage i tvSec up malloc, c    => manage i tvSec up malloc c
  | .poll a tvSec up malloc, c      => poll a tvSec up malloc c
  | .restart e, c                   =>
    some { c with slaves := Function.update c.slaves e (Slave.restProcess (c.slaves e)) }

def Step (c : Cluster) (l : Label) (c' : Cluster) : Prop :=
  exec l c = some c'

end Cluster
