import Aiotc.Library.Run
import Aiotc.Shm.Basic

-- shm.cpp and ffmpeg.cpp: the writers and the readers of one buffer, and when its memory is freed.

open Share

namespace Readers

-- Where a reader is: not among the users of the buffer, in the loop of `read_video_packet`, or
-- there with the node it has taken when `useMax` was this, and behind `__sync_add_and_fetch` before
-- its first and its second call of `shmFree`.
inductive Pc
  | out
  | loop
  | hold (node : Addr) (useMax : Int)
  | freePtr (node : Addr)
  | freeNode (node : Addr)
  deriving DecidableEq

-- What `copyToShm` was called with.
structure Write (β : Type) where
  buf : β
  size : Int
  frameId : Int
  type : Int
  max : Int

-- Where a call of `copyToShm` is that has allocated its block: before `putToShmQueue`, or behind
-- it with the block still to free.
inductive Writer (β : Type)
  | put (w : Write β)
  | free

-- `nodes` and `blocks` tell what `shmMalloc` has given out. Of the frame that the node at an
-- address holds, or has held, `ptr` and `used` tell what its readers look at. The calls of
-- `copyToShm` are known by their blocks.
structure State (β : Type) where
  shm : ShmParam β
  nodes : Addr → Bool := fun _ => false
  blocks : Addr → Bool := fun _ => false
  ptr : Addr → Addr := fun _ => 0
  used : Addr → Int := fun _ => 0
  writers : Addr → Option (Writer β) := fun _ => none
  readers : List Pc
  doubleFree : Bool := false

variable {β : Type}

namespace State

def freeBlock (p : Addr) (s : State β) : State β :=
  { s with
    blocks := Function.update s.blocks p false
    doubleFree := s.doubleFree || !s.blocks p }

def freeNode (a : Addr) (s : State β) : State β :=
  { s with
    nodes := Function.update s.nodes a false
    doubleFree := s.doubleFree || !s.nodes a }

def setReader (i : Nat) (pc : Pc) (s : State β) : State β :=
  { s with readers := s.readers.set i pc }

def setWriter (p : Addr) (w : Option (Writer β)) (s : State β) : State β :=
  { s with writers := Function.update s.writers p w }

end State

-- The loop of `freeShmQueue` with `freeShmPtr`.
def freeShmQueue (s : State β) : State β :=
  s.shm.queue.nodes.foldl (fun s x => (s.freeBlock x.2.name.ptr).freeNode x.1) s

def setShmUser (val : Int) (s : State β) : State β :=
  { freeShmQueue s with shm := Shm.setShmUser val s.shm }

def copyFromShmWithUser (i : Nat) (frameId : Int) (s : State β) : State β :=
  let (taken, shm) := Shm.copyFromShmWithUser frameId s.shm
  let s := { s with shm := shm }
  match taken with
  | none   => s
  | some t => s.setReader i (.hold t.node t.useMax)

def addAndFetch (i : Nat) (a : Addr) (useMax : Int) (s : State β) : State β :=
  let used := s.used a + 1
  let s := { s with used := Function.update s.used a used }
  s.setReader i (if used ≥ useMax then .freePtr a else .loop)

-- The part of `copyToShm` that holds `mutex_shm`.
def putToShmQueue (p : Addr) (w : Write β) (node : Ptr) (s : State β) : State β :=
  let (ret, shm) := Shm.copyToShm w.buf w.size w.frameId w.type w.max (some p) node s.shm
  let s := { s with shm := shm }
  if ret ≠ 0 then
    s.setWriter p (some .free)
  else
    match node with
    | none   => s
    | some a =>
      { s.setWriter p none with
        nodes := Function.update s.nodes a true
        ptr := Function.update s.ptr a p
        used := Function.update s.used a 0 }

-- `finish` is the next step of a reader that is done with its frame.
inductive Label (β : Type)
  | join (i : Nat)
  | leave (i : Nat)
  | take (i : Nat) (frameId : Int)
  | finish (i : Nat)
  | malloc (p : Addr) (w : Write β)
  | put (p : Addr) (node : Ptr)
  | free (p : Addr)

-- `shmMalloc` does not give out what is in use.
def exec : Label β → State β → Option (State β)
  | .join i, s =>
    if s.readers[i]? = some .out then some ((setShmUser 1 s).setReader i .loop) else none
  | .leave i, s =>
    if s.readers[i]? = some .loop then some ((setShmUser 0 s).setReader i .out) else none
  | .take i frameId, s =>
    if s.readers[i]? = some .loop then some (copyFromShmWithUser i frameId s) else none
  | .finish i, s =>
    match s.readers[i]? with
    | some (.hold a useMax) => some (addAndFetch i a useMax s)
    | some (.freePtr a)     => some ((s.freeBlock (s.ptr a)).setReader i (.freeNode a))
    | some (.freeNode a)    => some ((s.freeNode a).setReader i .loop)
    | _                     => none
  | .malloc p w, s =>
    if s.blocks p then
      none
    else
      some ({ s with blocks := Function.update s.blocks p true }.setWriter p (some (.put w)))
  | .put p node, s =>
    match s.writers p with
    | some (.put w) => if node.any s.nodes then none else some (putToShmQueue p w node s)
    | _             => none
  | .free p, s =>
    match s.writers p with
    | some .free => some ((s.freeBlock p).setWriter p none)
    | _          => none

def Step (s : State β) (l : Label β) (s' : State β) : Prop :=
  exec l s = some s'

-- No block or node is freed twice, nor while a reader that took it has not finished it.
structure Safe (s : State β) : Prop where
  freedOnce : s.doubleFree = false
  held      : ∀ a useMax, .hold a useMax ∈ s.readers → s.nodes a ∧ s.blocks (s.ptr a)

-- A reader joins or leaves only while no frame that is still queued is held by another.
def Quiet (s : State β) : Label β → Prop
  | .join _  => ∀ a ∈ s.shm.queue.nodes.map Prod.fst, ∀ useMax, .hold a useMax ∉ s.readers
  | .leave _ => ∀ a ∈ s.shm.queue.nodes.map Prod.fst, ∀ useMax, .hold a useMax ∉ s.readers
  | _        => True

end Readers
