import Aiotc.Objects.Misc

-- master.cpp: the slaves of a master, and how objects are placed on them.

namespace Master

-- The node that `addSlave` fills in. `none` is one of its `goto end`.
def newSlave (buf : Text) : Option SlaveParam := do
  let restPort := getIntValFromJson buf ["restPort"]
  let streamPort := getIntValFromJson buf ["streamPort"]
  let slaveIp ← getStrValFromJson buf ["slaveIp"]
  let internetIp ← getStrValFromJson buf ["internetIp"]
  guard ¬(restPort < 0 ∨ streamPort < 0)
  return {
    ip := strncpy 48 slaveIp
    internetIp := strncpy 48 internetIp
    restPort := restPort
    streamPort := streamPort }

-- `arg` tells if the copy of the text was allocated, and `node` where the node was.
def addSlave (buf : Text) (arg : Bool) (node : Ptr) (mp : MasterParams) : MasterParams :=
  match newSlave buf, node with
  | some p, some a =>
    if arg then
      { mp with slaveQueue := (Queue.putToShmQueue (a, p) 1000 true mp.slaveQueue).2 }
    else
      mp
  | _, _ => mp

def delSlave (buf : Text) (mp : MasterParams) : MasterParams :=
  match getStrValFromJson buf ["slaveIp"] with
  | none         => mp
  | some slaveIp =>
    { mp with slaveQueue := Queue.delFromQueue (conditionBySlaveIp slaveIp) mp.slaveQueue }

-- What a pointer from an object leads to.
def slaveAt (slaveQueue : SlaveQueue) (slave : Ptr) : Option SlaveParam := do
  let a ← slave
  let p ← slaveQueue.find? (·.1 = a)
  return p.2

def updateSlave (a : Addr) (f : SlaveParam → SlaveParam) (slaveQueue : SlaveQueue) : SlaveQueue :=
  Queue.modifyFound (·.1 = a) (fun p => (p.1, f p.2)) slaveQueue

-- In `detachObjSlave` and `mobjManager` the result `none` is a dereference of a pointer that does
-- not lead to a node.

def detachObjSlave (slaveQueue : SlaveQueue) (slaveIp : CStr) (o : ObjParam) : Option ObjParam :=
  if o.slave ≠ none ∧ o.attachSlave ≠ 0 then do
    let p ← slaveAt slaveQueue o.slave
    if strncpy 48 slaveIp = strncpy 48 p.ip then
      return { o with attachSlave := 0 }
    else
      return o
  else
    some o

def detachSlave (p : SlaveParam) (mp : MasterParams) : Option MasterParams := do
  let mobjQueue ← mp.mobjQueue.mapM (detachObjSlave mp.slaveQueue p.ip)
  return { mp with mobjQueue := mobjQueue }

-- What one call of `slaveLoad` does to the slave it polls, whether it calls `detachSlave`, and
-- what it posts to /system/init of the slave.
structure Loaded where
  param : SlaveParam
  detach : Bool := false
  post : Option Text := none

-- `ack` is `none` where the text that `httpGet` left does not contain "systemInit".
def slaveLoad (ack : Option Text) (tvSec : Int) (sysOrgData : Option Text) (p : SlaveParam) :
    Loaded :=
  match ack with
  | none => {
    param := { p with
      offline := if p.offline = 0 then tvSec else p.offline
      systemInit := if p.offline = 0 then 0 else p.systemInit
      online := if p.online ≠ 0 then 0 else p.online }
    detach := p.offline = 0 }
  | some ack =>
    let systemInit := getIntValFromJson ack ["data", "systemInit"]
    let load := getIntValFromJson ack ["data", "load"]
    if systemInit = 0 then {
      param := { p with
        online := if p.online = 0 then tvSec else p.online
        offline := if p.offline ≠ 0 then 0 else p.offline
        systemInit := if sysOrgData.isSome ∧ p.systemInit = 0 then 1 else p.systemInit
        load := load }
      post := sysOrgData }
    else
      { param := { p with load := load } }

-- The callback `_getlowestLoadSlave` of the traversal below.
def getlowestLoadSlave (lowest : Option (Addr × SlaveParam)) (p : Addr × SlaveParam) :
    Option (Addr × SlaveParam) :=
  match lowest with
  | none =>
    if p.2.online ≠ 0 ∧ p.2.systemInit ≠ 0 ∧ p.2.load < SLAVE_LOAD_MAX then some p else none
  | some last =>
    if p.2.load < last.2.load ∧ p.2.online ≠ 0 ∧ p.2.systemInit ≠ 0 then some p else some last

def getLowestLoadSlave (slaveQueue : SlaveQueue) : Option (Addr × SlaveParam) :=
  slaveQueue.foldl getlowestLoadSlave none

def slaveIsNormal (tvSec : Int) (p : SlaveParam) : Int :=
  if p.offline ≠ 0 ∨ p.systemInit = 0 ∨ p.load ≥ SLAVE_LOAD_MAX then
    if p.offline ≠ 0 ∧ tvSec - p.offline < 120 then 0 else -1
  else
    1

-- The placement part of `mobjManager`: the object, whether it is redirected, and the ip that
-- `dbUpdate` stores in original.slave.ip of its document.
structure Placed where
  obj : ObjParam
  redirect : Bool := false
  slaveIp : Option CStr := none

-- What follows on `getLowestLoadSlave`.
def place (lowest : Option (Addr × SlaveParam)) (o : ObjParam) : Placed :=
  match lowest with
  | some (a, p) =>
    { obj := { o with slave := some a, attachSlave := 1 }, redirect := true, slaveIp := some p.ip }
  | none => { obj := o }

def mobjManager (tvSec : Int) (slaveQueue : SlaveQueue) (o : ObjParam) : Option Placed :=
  if o.slave ≠ none ∧ o.attachSlave = 0 then do
    let p ← slaveAt slaveQueue o.slave
    let normal := slaveIsNormal tvSec p
    if normal = 1 then
      return { obj := { o with attachSlave := 1 }, redirect := true }
    else if normal = -1 then
      return { obj := { o with slave := none } }
    else
      return { obj := o }
  else if o.slave = none then
    some (place (getLowestLoadSlave slaveQueue) o)
  else
    some { obj := o }

-- What a redirected object is posted as to /obj/add of its slave, if at all.
def redirectText (o : ObjParam) : Text :=
  delObjJson o.originaldata "slave"

-- The load that the slave replies is taken over. `ack` is `none` where the reply has no "load".
def redirectLoad (ack : Option Text) (p : SlaveParam) : SlaveParam :=
  match ack with
  | some ack => { p with load := getIntValFromJson ack ["data", "load"] }
  | none     => p

end Master
