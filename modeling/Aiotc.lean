import Aiotc.Slave.ObjIds
import Aiotc.Master.Settings
import Aiotc.Master.Restore
import Aiotc.Master.Ownership
import Aiotc.Master.Pointers
import Aiotc.Master.Attach
import Aiotc.Master.Algs
import Aiotc.Master.Reload
import Aiotc.Master.Server
import Aiotc.Pids.Quit
import Aiotc.Pids.Assign
import Aiotc.Pids.Interrupt
import Aiotc.Pids.Leak
import Aiotc.Task.Args
import Aiotc.Task.Resume
import Aiotc.Preview.Hls
import Aiotc.Preview.Handshake
import Aiotc.Preview.Backend
import Aiotc.Slave.Blocks
import Aiotc.Shm.Packets
import Aiotc.Shm.Handed
import Aiotc.Shm.Layout
import Aiotc.Work.Output
import Aiotc.Gat1400.Capture
import Aiotc.Msg.Ack
import Aiotc.Msg.Layout
import Aiotc.Rest.Body
import Aiotc.Share.Buffers
import Aiotc.Objects.Ipc
import Aiotc.Library.Directories
import Aiotc.Objects.Dirs
import Aiotc.Preview.ReadVideo
import Aiotc.Preview.Ffmpeg
import Aiotc.Preview.OldTs
import Aiotc.Library.Blocks
import Aiotc.Share.Pooled
import Aiotc.Objects.HeadPool
import Aiotc.Share.Owned
import Aiotc.Share.Traverse
import Aiotc.Task.Pass
import Aiotc.Library.Select
import Aiotc.Library.Script
import Aiotc.Library.Goto
import Aiotc.Share.Socket
import Aiotc.Master.DbUri
import Aiotc.Master.LowestLoad
import Aiotc.Task.Alternate
import Aiotc.Slave.MalformedId
import Aiotc.Library.Ring
import Aiotc.Library.Tiling
import Aiotc.Slab.Stat
import Aiotc.Slab.Queue
import Aiotc.Slab.Heap
import Aiotc.Share.Texts
import Aiotc.Json.Escapes
import Aiotc.Json.Parse
