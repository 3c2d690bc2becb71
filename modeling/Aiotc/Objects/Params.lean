import Aiotc.Share.Json
import Aiotc.Share.QueueCommon

-- The structures that obj.h, task.h, alg.h, master.h, slave.h and db.h put into shared memory.

structure AlgParams where
  name : CStr

-- A block on the private heap of a process. Heaps of different incarnations of a process have
-- nothing in common, even where they use the same addresses.
structure Block where
  incarnation : Nat
  addr : Addr
  deriving DecidableEq

structure TaskParams where
  livestream : Int := 0
  liveBeat : Int := 0
  liveTaskBeat : Int := 0
  liveRestart : Int := 0
  liveArgs : Option Block := none
  capture : Int := 0
  captureBeat : Int := 0
  captureTaskBeat : Int := 0
  captureRestart : Int := 0
  captureArgs : Option Block := none
  record : Int := 0
  recordBeat : Int := 0
  recordTaskBeat : Int := 0
  recordRestart : Int := 0
  recordArgs : Option Block := none
  preview : CStr := []
  previewBeat : Int := 0
  previewTaskBeat : Int := 0
  previewRestart : Int := 0
  previewArgs : Ptr := none
  algQueue : List AlgParams := []

structure ObjParam where
  id : Int
  name : CStr
  type : CStr
  subtype : CStr
  attachSlave : Int := 0
  slave : Ptr := none
  task : TaskParams := {}
  originaldata : Text

-- `online` and `offline` are the seconds at which the slave was seen to come and go.
structure SlaveParam where
  ip : CStr
  internetIp : CStr
  restPort : Int
  streamPort : Int
  systemInit : Int := 0
  load : Int := 0
  online : Int := 0
  offline : Int := 0

structure SlaveParams where
  systemInit : Int := 0
  load : Int := 0
  keyCache : List Int := []

-- An object points to its slave by the address of a node.
abbrev SlaveQueue := List (Addr × SlaveParam)

structure MasterParams where
  slaveQueue : SlaveQueue := []
  mobjQueue : List ObjParam := []

-- `masterEnable` is 1 for a master, 0 for a slave and 2 for both.
structure ConfigParams where
  masterEnable : Int
  masterObjMax : Int
  slaveObjMax : Int
  msgKeyStart : Int
  msgKeyMax : Int

-- The shared memory of one host.
structure AiotcParams where
  configArgs : ConfigParams
  sysOrgData : Option Text := none
  masterArgs : MasterParams := {}
  slaveArgs : SlaveParams := {}
  objQueue : List ObjParam := []

def SLAVE_LOAD_MAX : Int := 90

-- What a run over REST requests is about: the task settings of an object.
structure Settings where
  livestream : Int
  capture : Int
  record : Int
  preview : CStr
  deriving DecidableEq

def TaskParams.settings (t : TaskParams) : Settings where
  livestream := t.livestream
  capture := t.capture
  record := t.record
  preview := t.preview
