import Aiotc.Share.Json
import Aiotc.Share.Refinement

-- shm.cpp: the buffers through which the frames of a camera reach those that read them.

open Share

-- `buf` is what the block at `ptr` holds. `used` is not here: readers count it also in nodes that
-- are no longer queued.
structure ShmFrame (β : Type) where
  type : Int
  ptr : Addr
  buf : β
  size : Int
  frameId : Int

-- The queue is seen as the list that it represents.
structure ShmParam (β : Type) where
  type : CStr
  queue : AbsQueue (ShmFrame β) := {}
  usedd : Int := 0

-- A frame as `copyFromShmWithUser` hands it out: its node, and the `useMax` at this time.
structure Taken (β : Type) where
  node : Addr
  frame : ShmFrame β
  useMax : Int

namespace Shm

variable {β : Type}

def initShmArray (videoMax captureMax : Nat) : List (ShmParam β) :=
  .replicate videoMax { type := "video" } ++ .replicate captureMax { type := "capture" }

def freeShmPtr : CallBack (ShmFrame β) :=
  fun p blocks => Function.update blocks p.name.ptr false

def clearShmQueue (shm : ShmParam β) : ShmParam β :=
  { shm with queue := (spec (.freeShmQueue (some freeShmPtr)) shm.queue).queue }

def setUseMax (val : Int) (useMax : Int) : Int :=
  if val ≠ 0 then
    useMax + 1
  else
    if useMax - 1 < 0 then 0 else useMax - 1

def setShmUser (val : Int) (shm : ShmParam β) : ShmParam β :=
  let useMax := setUseMax val shm.queue.useMax
  clearShmQueue { shm with queue := (spec (.setUseMax useMax) shm.queue).queue }

-- A buffer is given by its place in `pShmArray`.
def getFreeShm (type : CStr) (shms : List (ShmParam β)) : Option Nat × List (ShmParam β) :=
  match shms.findIdx? fun p => p.type = type ∧ p.usedd = 0 with
  | none   => (none, shms)
  | some i => (some i, shms.modify i fun p => { p with usedd := 1 })

def releaseShm (shm : ShmParam β) : ShmParam β :=
  { clearShmQueue shm with usedd := 0 }

-- `ptr` and `node` are the outcomes of the allocations.
def copyToShm (buf : β) (size frameId type max : Int) (ptr node : Ptr) (shm : ShmParam β) :
    Int × ShmParam β :=
  match ptr with
  | none   => (-1, shm)
  | some a =>
    let new := { type := type, ptr := a, buf := buf, size := size, frameId := frameId }
    let r := spec (.putToShmQueue ⟨new, 0, none⟩ max node) shm.queue
    (if r.ret ≠ 0 then -1 else 0, { shm with queue := r.queue })

def conditionByFrameId (frameId : Int) (p : Addr × NodeData (ShmFrame β)) : Int :=
  if p.2.name.frameId > frameId then 1 else 0

def copyFromShmWithUser (frameId : Int) (shm : ShmParam β) : Option (Taken β) × ShmParam β :=
  let condition := conditionByFrameId frameId
  let r := spec (.delFromQueueByUser condition) shm.queue
  let p := shm.queue.nodes.find? (condition · = 1)
  (p.map fun p => ⟨p.1, p.2.name, shm.queue.useMax⟩, { shm with queue := r.queue })

section

variable {shm : ShmParam β} {shms : List (ShmParam β)} {x : Addr × NodeData (ShmFrame β)}

@[simp]
theorem nodes_clearShmQueue : (clearShmQueue shm).queue.nodes = [] :=
  rfl

@[simp]
theorem nodes_setShmUser (val : Int) : (setShmUser val shm).queue.nodes = [] :=
  rfl

@[simp]
theorem nodes_releaseShm : (releaseShm shm).queue.nodes = [] :=
  rfl

theorem getFreeShm_nodes {type : CStr} {b : Nat} {shm' : ShmParam β}
    (h : (getFreeShm type shms).2[b]? = some shm') :
    ∃ shm, shms[b]? = some shm ∧ shm'.queue = shm.queue := by
  simp only [getFreeShm] at h
  split at h
  case h_1 => exact ⟨shm', h, rfl⟩
  case h_2 i _ =>
    simp only [List.getElem?_modify, Option.map_eq_map, Option.map_eq_some_iff] at h
    obtain ⟨shm, hb, rfl⟩ := h
    refine ⟨shm, hb, ?_⟩
    split <;> rfl

-- What a frame that is queued now was before.
theorem copyToShm_nodes {buf : β} {size frameId type max : Int} {ptr node : Ptr}
    (h : x ∈ (copyToShm buf size frameId type max ptr node shm).2.queue.nodes) :
    x ∈ shm.queue.nodes ∨ x.2.name.buf = buf := by
  simp only [copyToShm, spec, AbsQueue.put] at h
  split at h
  case h_1 => exact .inl h
  case h_2 =>
    split at h
    case isFalse => exact .inl h
    case isTrue =>
      split at h
      case h_1 => exact .inl h
      case h_2 =>
        rcases List.mem_append.mp h with h | h
        · exact .inl h
        · rw [List.mem_singleton.mp h]
          exact .inr rfl

-- The two ways in which a call of `copyToShm` that has its block can end.
theorem copyToShm_cases (buf : β) (size frameId type max : Int) (p : Addr) (node : Ptr)
    (shm : ShmParam β) :
    (copyToShm buf size frameId type max (some p) node shm).1 = -1 ∧
      (copyToShm buf size frameId type max (some p) node shm).2 = shm ∨
    ∃ a, node = some a ∧
      copyToShm buf size frameId type max (some p) node shm = (0, { shm with queue :=
        { shm.queue with nodes :=
          shm.queue.nodes ++ [(a, ⟨⟨type, p, buf, size, frameId⟩, 0, none⟩)] } }) := by
  simp only [copyToShm, spec, AbsQueue.put]
  split
  case isFalse => exact .inl ⟨rfl, rfl⟩
  case isTrue =>
    cases node
    case none   => exact .inl ⟨rfl, rfl⟩
    case some a => exact .inr ⟨a, rfl, rfl⟩

-- A reader finds no frame, or counts the one it takes, which leaves the queue with its last taker.
theorem copyFromShmWithUser_cases (frameId : Int) (shm : ShmParam β) :
    (∀ x ∈ shm.queue.nodes, x.2.name.frameId ≤ frameId) ∧
      copyFromShmWithUser frameId shm = (none, shm) ∨
    ∃ us a d vs, shm.queue.nodes = us ++ (a, d) :: vs ∧
      (∀ x ∈ us, x.2.name.frameId ≤ frameId) ∧ frameId < d.name.frameId ∧
      copyFromShmWithUser frameId shm = (some ⟨a, d.name, shm.queue.useMax⟩, { shm with queue :=
        { shm.queue with nodes :=
          if d.val + 1 ≥ shm.queue.useMax then us ++ vs
          else us ++ (a, { d with val := d.val + 1 }) :: vs } }) := by
  have hle : ∀ x : Addr × NodeData (ShmFrame β), conditionByFrameId frameId x ≠ 1 →
      x.2.name.frameId ≤ frameId := by
    intro x hx
    by_contra hlt
    exact hx (if_pos (Int.not_le.mp hlt))
  rcases first_match (conditionByFrameId frameId) shm.queue.nodes with
    hc | ⟨us, a, d, vs, hn, hc, ha⟩
  case inl =>
    refine .inl ⟨fun x hx => hle x (hc x hx), ?_⟩
    simp [copyFromShmWithUser, spec, AbsQueue.delByUser_of_none hc, AbsQueue.find?_of_none hc]
  case inr =>
    have hlt : frameId < d.name.frameId := by
      by_contra hle
      simp [conditionByFrameId, hle] at ha
    refine .inr ⟨us, a, d, vs, hn, fun x hx => hle x (hc x hx), hlt, ?_⟩
    simp only [copyFromShmWithUser, spec, AbsQueue.delByUser_of_first hn hc ha,
      AbsQueue.find?_of_first hn hc ha]
    split <;> rfl

theorem mem_takeFirst {condition : Addr × NodeData (ShmFrame β) → Int} {useMax : Int}
    {xs : List (Addr × NodeData (ShmFrame β))} (h : x ∈ AbsQueue.takeFirst condition useMax xs) :
    ∃ y ∈ xs, y.1 = x.1 ∧ y.2.name = x.2.name := by
  induction xs
  case nil => simp [AbsQueue.takeFirst] at h
  case cons y xs hi =>
    simp only [AbsQueue.takeFirst] at h
    split at h
    case isTrue =>
      split at h
      case isTrue => exact ⟨x, List.mem_cons_of_mem _ h, rfl, rfl⟩
      case isFalse =>
        rcases List.mem_cons.mp h with rfl | h
        · exact ⟨y, List.mem_cons_self, rfl, rfl⟩
        · exact ⟨x, List.mem_cons_of_mem _ h, rfl, rfl⟩
    case isFalse =>
      rcases List.mem_cons.mp h with rfl | h
      · exact ⟨_, List.mem_cons_self, rfl, rfl⟩
      · obtain ⟨z, hz, hn⟩ := hi h
        exact ⟨z, List.mem_cons_of_mem _ hz, hn⟩

theorem copyFromShmWithUser_nodes {frameId : Int}
    (h : x ∈ (copyFromShmWithUser frameId shm).2.queue.nodes) :
    ∃ y ∈ shm.queue.nodes, y.2.name = x.2.name := by
  have ⟨y, hy, _, hn⟩ := mem_takeFirst h
  exact ⟨y, hy, hn⟩

theorem copyFromShmWithUser_some {frameId : Int} {t : Taken β}
    (h : (copyFromShmWithUser frameId shm).1 = some t) :
    ∃ y ∈ shm.queue.nodes, y.1 = t.node ∧ y.2.name = t.frame ∧ t.useMax = shm.queue.useMax := by
  simp only [copyFromShmWithUser, Option.map_eq_some_iff] at h
  obtain ⟨y, hy, rfl⟩ := h
  exact ⟨y, List.mem_of_find?_eq_some hy, rfl, rfl, rfl⟩

end

end Shm
