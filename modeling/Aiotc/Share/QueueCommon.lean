import Aiotc.Library.Segment

-- The queues of share.cpp, as the pointer structures they are: `queue_common` points to its
-- first and last `node_common`, the nodes are linked by `next`.

abbrev Addr := Nat

-- `none` is NULL.
abbrev Ptr := Option Addr

-- A `node_common` without its `next`. What callers copy into `name` is the parameter `α`.
structure NodeData (α : Type) where
  name : α
  val : Int := 0
  arg : Ptr := none

abbrev NodeCommon (α : Type) := Cell Addr (NodeData α)

structure QueueCommon where
  head : Ptr := none
  tail : Ptr := none
  useMax : Int := 0
  queLen : Int := 0

namespace Share

variable {α : Type}

-- The memory a queue lives in. Payload blocks (the `arg` of a node, or what its `name` refers
-- to) are kept apart from the nodes: no payload pointer of the program refers to a node.
structure Store (α : Type) where
  nodes : Addr → Option (NodeCommon α)
  blocks : Addr → Bool
  queue : QueueCommon

-- What a call leaves behind: `ret` is its return value, `newP` what it stored in `*new_p`, and
-- `exception` tells if it took its 'exception queLen' branch.
structure Result (α : Type) where
  store : Store α
  ret : Int := 0
  newP : Ptr := none
  exception : Bool := false

-- `n->next = p`.
def setNext (nodes : Addr → Option (NodeCommon α)) (n p : Ptr) :
    Option (Addr → Option (NodeCommon α)) := do
  let a ← n
  let c ← nodes a
  return Function.update nodes a (some ⟨c.data, p⟩)

-- In the operations below `none` is a call that dereferences NULL or a pointer to no node, or
-- that has not left its loop after `fuel` iterations.

-- `full` is what a call on a full queue returns.
def put (full : Int → Int) (new : NodeData α) (max : Int) (malloc : Ptr) (s : Store α) :
    Option (Result α) :=
  let q := s.queue
  if q.queLen < max then
    match malloc with
    | none => some { store := s, ret := -1 }
    | some a => do
      let nodes := Function.update s.nodes a (some ⟨new, none⟩)
      match q.head with
      | none =>
        let q := { q with head := some a, tail := some a, queLen := q.queLen + 1 }
        return { store := { s with nodes := nodes, queue := q } }
      | some _ =>
        let nodes ← setNext nodes q.tail (some a)
        let q := { q with tail := some a, queLen := q.queLen + 1 }
        return { store := { s with nodes := nodes, queue := q } }
  else
    some { store := s, ret := full q.queLen }

def putToQueue : NodeData α → Int → Ptr → Store α → Option (Result α) :=
  put id

def putToShmQueue : NodeData α → Int → Ptr → Store α → Option (Result α) :=
  put fun _ => -1

def getFromQueue (s : Store α) : Option (Result α) :=
  let q := s.queue
  match q.head with
  | none => some { store := s }
  | some a => do
    let c ← s.nodes a
    let q := { q with head := c.next, tail := if c.next = none then none else q.tail }
    let q := { q with queLen := q.queLen - 1 }
    if q.queLen < 0 then
      return { store := { s with queue := { q with queLen := 0 } }, ret := -1, exception := true }
    else
      return { store := { s with queue := q }, newP := some a }

-- The four cases by which `delFromQueue` and `delFromQueueByUser` take the node `c` at `a` out
-- of the queue, and the update of `queLen` behind them.
def unlink (prev : Ptr) (a : Addr) (c : NodeCommon α) (s : Store α) : Option (Result α) := do
  let q := s.queue
  let (nodes, q) ←
    if q.head = some a ∧ q.tail = some a then
      some (s.nodes, { q with head := none, tail := none })
    else if q.head = some a then
      some (s.nodes, { q with head := c.next })
    else if q.tail = some a then do
      let nodes ← setNext s.nodes prev none
      some (nodes, { q with tail := prev })
    else do
      let nodes ← setNext s.nodes prev c.next
      some (nodes, q)
  let q := { q with queLen := q.queLen - 1 }
  if q.queLen < 0 then
    return { store := { s with nodes := nodes, queue := { q with queLen := 0 } }, newP := some a,
             exception := true }
  else
    return { store := { s with nodes := nodes, queue := q }, newP := some a }

-- The loop of `delFromQueue` and `delFromQueueByUser`: `found` is what they do with the first
-- node for which `condition` returns 1.
def walk (condition : Addr × NodeData α → Int)
    (found : Ptr → Addr → NodeCommon α → Option (Result α)) (s : Store α) :
    (fuel : Nat) → (prev p : Ptr) → Option (Result α)
  | 0, _, _              => none
  | _ + 1, _, none       => some { store := s }
  | fuel + 1, prev, some a => do
    let c ← s.nodes a
    if condition (a, c.data) = 1 then
      found prev a c
    else
      walk condition found s fuel (some a) c.next

-- More iterations than a queue has nodes.
def fuel (s : Store α) : Nat :=
  s.queue.queLen.toNat + 1

def delFromQueue (condition : Addr × NodeData α → Int) (s : Store α) : Option (Result α) :=
  walk condition (fun prev a c => unlink prev a c s) s (fuel s) s.queue.head s.queue.head

def delFromQueueByUser (condition : Addr × NodeData α → Int) (s : Store α) : Option (Result α) :=
  walk condition found s (fuel s) s.queue.head s.queue.head
where
  found (prev : Ptr) (a : Addr) (c : NodeCommon α) : Option (Result α) :=
    let c := { c with data := { c.data with val := c.data.val + 1 } }
    let s := { s with nodes := Function.update s.nodes a (some c) }
    if c.data.val ≥ s.queue.useMax then
      unlink prev a c s
    else
      some { store := s, newP := some a }

-- `callBack` frees payload blocks of the node it is given.
abbrev CallBack (α : Type) := NodeData α → (Addr → Bool) → Addr → Bool

def freeLoop (callBack : Option (CallBack α)) :
    (fuel : Nat) → Ptr → Store α → Option (Store α)
  | 0, _, _           => none
  | _ + 1, none, s    => some s
  | fuel + 1, some a, s => do
    let c ← s.nodes a
    let blocks := (callBack.getD fun _ b => b) c.data s.blocks
    let blocks := match c.data.arg with
      | none => blocks
      | some b => Function.update blocks b false
    freeLoop callBack fuel c.next
      { s with nodes := Function.update s.nodes a none, blocks := blocks }

-- `freeQueue` and `freeShmQueue` differ in the pool they give the memory back to.
def freeAll (callBack : Option (CallBack α)) (s : Store α) : Option (Result α) := do
  let s ← freeLoop callBack (fuel s) s.queue.head s
  return { store := { s with queue := { s.queue with head := none, tail := none, queLen := 0 } } }

def freeQueue : Option (CallBack α) → Store α → Option (Result α) :=
  freeAll

def freeShmQueue : Option (CallBack α) → Store α → Option (Result α) :=
  freeAll

-- The calls on a queue. Between them other code sets `useMax` (`setShmUser` does), and the
-- caller frees nodes it was handed.
inductive Op (α : Type)
  | putToQueue (new : NodeData α) (max : Int) (malloc : Ptr)
  | putToShmQueue (new : NodeData α) (max : Int) (malloc : Ptr)
  | getFromQueue
  | delFromQueue (condition : Addr × NodeData α → Int)
  | delFromQueueByUser (condition : Addr × NodeData α → Int)
  | freeQueue (callBack : Option (CallBack α))
  | freeShmQueue (callBack : Option (CallBack α))
  | setUseMax (useMax : Int)
  | free (a : Addr)

def exec : Op α → Store α → Option (Result α)
  | .putToQueue new max malloc, s        => putToQueue new max malloc s
  | .putToShmQueue new max malloc, s     => putToShmQueue new max malloc s
  | .getFromQueue, s                     => getFromQueue s
  | .delFromQueue condition, s           => delFromQueue condition s
  | .delFromQueueByUser condition, s     => delFromQueueByUser condition s
  | .freeQueue callBack, s               => freeQueue callBack s
  | .freeShmQueue callBack, s            => freeShmQueue callBack s
  | .setUseMax useMax, s                 =>
    some { store := { s with queue := { s.queue with useMax := useMax } } }
  | .free a, s                           =>
    some { store := { s with nodes := Function.update s.nodes a none } }

-- `a` is met on the way from `head`.
def Linked (s : Store α) (a : Addr) : Prop :=
  ∃ xs q, Heap.Segment s.nodes s.queue.head xs q ∧ a ∈ Heap.addrs xs

-- What the allocator and the callers guarantee: a fresh block is not in use, and a node that is
-- still linked is not freed.
def Allowed (s : Store α) : Op α → Prop
  | .putToQueue _ _ malloc | .putToShmQueue _ _ malloc => ∀ a ∈ malloc, s.nodes a = none
  | .free a                                            => ¬Linked s a
  | _                                                  => True

def Step (s : Store α) (op : Op α) (s' : Store α) : Prop :=
  Allowed s op ∧ ∃ r, exec op s = some r ∧ r.store = s'

end Share
