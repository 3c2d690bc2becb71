import Aiotc.Master.Slaves
import Aiotc.Objects.HeadPool
import Aiotc.Share.Buffers
import Aiotc.Shm.Basic

-- The functions that put a node together with what it owns into a queue: `copyToShm` of shm.cpp,
-- `copyToMqQueue` of work.cpp, `addSlave` of master.cpp and `addAlg` of misc.cpp.

open Share

namespace Owned

variable {β : Type}

-- The frame is `Shm.copyToShm`'s, whose block is in the pool of the buffer.
def shmFrame (buf : β) (size frameId type : Int) (ptr : Addr) : NodeData (ShmFrame β) where
  name := { type := type, ptr := ptr, buf := buf, size := size, frameId := frameId }

def copyToShm (buf : β) (size frameId type max : Int) (ptr node : Ptr)
    (s : Pooled (ShmFrame β) β) : Option (Int × Pooled (ShmFrame β) β) := do
  let (ret, s) ← s.putOwned buf (shmFrame buf size frameId type) max ptr node
  return (if ret ≠ 0 then -1 else 0, s)

-- A node of `pOutQueue` has nothing in its `name`.
def mqNode (ptr : Addr) : NodeData Unit where
  name := ()
  arg := some ptr

-- The size goes through an `int`.
def mqLen (json : CStr) : Nat :=
  Buffers.sizeT (wrap32 (Buffers.rounded json.length))

def copyToMqQueue (json : CStr) (ptr node : Ptr) (s : HeadPool Unit) :
    Option (Int × HeadPool Unit) := do
  let (_, s) ← s.putOwned (.json (strncpy (mqLen json) json)) mqNode 1000 ptr node
  return (if ptr = none then -1 else 0, s)

def slaveNode (p : SlaveParam) (ptr : Addr) : NodeData SlaveParam where
  name := p
  arg := some ptr

def addSlave (buf : Text) (ptr node : Ptr) (s : HeadPool SlaveParam) :
    Option (HeadPool SlaveParam) :=
  match Master.newSlave buf with
  | none   => some s
  | some p => do
    let (_, s) ← s.putOwned (.text buf) (slaveNode p) 1000 ptr node
    return s

-- What `addAlg` appends to the queue of the object that it finds.
def AlgAppended (id : Int) (algName : CStr) (s s' : HeadPool ObjNode) : Prop :=
  ∃ us a p vs q, s.queue.nodes = us ++ (a, p) :: vs ∧ (∀ x ∈ us, x.2.name.id ≠ id) ∧
    p.name.id = id ∧
    s'.queue = { s.queue with
      nodes := us ++ (a, { p with name := { p.name with algQueue := q } }) :: vs } ∧
    Pooled.Appended ⟨⟨strncpy 32 algName⟩, 0, none⟩ [] ⟨p.name.algQueue, s.blocks⟩ ⟨q, s'.blocks⟩

section

variable {buf : β} {text : Text} {json algName : CStr} {size frameId type max ret id : Int}
  {ptr node : Ptr}

theorem copyToShm_cases {s s' : Pooled (ShmFrame β) β}
    (h : copyToShm buf size frameId type max ptr node s = some (ret, s')) :
    (ret = 0 ∧ ∃ p, ptr = some p ∧
      s.Appended (shmFrame buf size frameId type p) [(p, buf)] s') ∨ (ret = -1 ∧ s' = s) := by
  have ⟨(r, s₁), hp, h⟩ := Option.bind_eq_some_iff.mp h
  cases h
  rcases Pooled.putOwned_cases hp with ⟨rfl, p, hp, ha⟩ | ⟨rfl, rfl⟩
  · exact .inl ⟨rfl, p, hp, ha⟩
  · exact .inr ⟨rfl, rfl⟩

-- The queue of the buffer is the one that its readers see.
theorem copyToShm_shm {s s' : Pooled (ShmFrame β) β} {shm : ShmParam β}
    (h : copyToShm buf size frameId type max ptr node s = some (ret, s'))
    (hq : shm.queue = s.queue) :
    Shm.copyToShm buf size frameId type max ptr node shm =
      (ret, { shm with queue := s'.queue }) := by
  cases ptr
  case none =>
    cases h
    simp [Shm.copyToShm, ← hq]
  case some p =>
    obtain ⟨⟨r, s₁⟩, hp, h⟩ := Option.bind_eq_some_iff.mp h
    cases h
    obtain ⟨hr, hs⟩ := Pooled.putOwned_spec hp
    simp [Shm.copyToShm, hq, hr, hs, shmFrame]

theorem copyToMqQueue_cases {s s' : HeadPool Unit}
    (h : copyToMqQueue json ptr node s = some (ret, s')) :
    (∃ p, s.Appended (mqNode p) [(p, .json (strncpy (mqLen json) json))] s') ∨ s' = s := by
  have ⟨(r, s₁), hp, h⟩ := Option.bind_eq_some_iff.mp h
  cases h
  rcases Pooled.putOwned_cases hp with ⟨-, p, -, ha⟩ | ⟨-, rfl⟩
  · exact .inl ⟨p, ha⟩
  · exact .inr rfl

theorem addSlave_cases {s s' : HeadPool SlaveParam} (h : addSlave text ptr node s = some s') :
    (∃ new p, Master.newSlave text = some new ∧
      s.Appended (slaveNode new p) [(p, .text text)] s') ∨ s' = s := by
  simp only [addSlave] at h
  split at h
  case h_1 => exact .inr (Option.some.inj h).symm
  case h_2 new hn =>
    have ⟨(r, s₁), hp, h⟩ := Option.bind_eq_some_iff.mp h
    cases h
    rcases Pooled.putOwned_cases hp with ⟨-, p, -, ha⟩ | ⟨-, rfl⟩
    · exact .inl ⟨new, p, hn, ha⟩
    · exact .inr rfl

-- The queue of the master with the addresses of its nodes.
theorem addSlave_master {s s' : HeadPool SlaveParam} {mp : MasterParams}
    (h : addSlave text ptr node s = some s')
    (hq : mp.slaveQueue = s.queue.nodes.map fun x => (x.1, x.2.name)) :
    (Master.addSlave text ptr.isSome node mp).slaveQueue =
      s'.queue.nodes.map fun x => (x.1, x.2.name) := by
  simp only [addSlave] at h
  split at h
  case h_1 hn =>
    cases h
    simp [Master.addSlave, hn, hq]
  case h_2 new hn =>
    cases ptr
    case none =>
      cases h
      cases node <;> simp [Master.addSlave, hn, hq]
    case some p =>
      have ⟨(r, s₁), hp, h⟩ := Option.bind_eq_some_iff.mp h
      cases h
      have ⟨_, hs⟩ := Pooled.putOwned_spec hp
      by_cases hl : (s.queue.nodes.length : Int) < 1000 <;> cases node <;>
        simp [Master.addSlave, hn, hq, hs, spec, AbsQueue.put, Queue.putToShmQueue, hl, slaveNode]

theorem addAlg_cases {s s' : HeadPool ObjNode} (h : HeadPool.addAlg id algName node s = some s') :
    AlgAppended id algName s s' ∨ s' = s := by
  simp only [HeadPool.addAlg] at h
  split at h
  case h_1 => exact .inr (Option.some.inj h).symm
  case h_2 a p hf =>
    have ⟨(o, blocks), hp, h⟩ := Option.bind_eq_some_iff.mp h
    have ⟨(r, s₁), hr, ho⟩ := Option.bind_eq_some_iff.mp hp
    cases h
    cases ho
    have ⟨hc, us, vs, hn, hu⟩ := List.find?_eq_some_iff_append.mp hf
    have hu : ∀ x ∈ us, ¬(decide (HeadPool.conditionByObjId id x = 1) = true) := by simpa using hu
    simp only [hn, Queue.modifyFound_of_first hu hc]
    rcases Pooled.putToShmQueue_cases hr with ⟨-, -, n, -, ha, hq⟩ | ⟨-, -, rfl⟩
    case inl =>
      refine .inl ⟨us, a, p, vs, s₁.queue, hn, ?_, ?_, rfl, n, hq, (Blocks.Gains.nil _).malloc ha⟩
      · simpa [HeadPool.conditionByObjId] using hu
      · simpa [HeadPool.conditionByObjId] using hc
    case inr => exact .inr (by rw [← hn])

-- A call leaves no trace only where memory or room is missing, or there is nothing to queue.
theorem unchanged_iff :
    (∀ (β : Type) (buf : β) (size frameId type max ret : Int) (ptr node : Ptr)
      (s s' : Pooled (ShmFrame β) β),
      copyToShm buf size frameId type max ptr node s = some (ret, s') →
        (s' = s ↔ ¬(ptr.isSome ∧ node.isSome ∧ s.queue.nodes.length < max))) ∧
    (∀ (json : CStr) (ptr node : Ptr) (ret : Int) (s s' : HeadPool Unit),
      copyToMqQueue json ptr node s = some (ret, s') →
        (s' = s ↔ ¬(ptr.isSome ∧ node.isSome ∧ (s.queue.nodes.length : Int) < 1000))) ∧
    (∀ (buf : Text) (ptr node : Ptr) (s s' : HeadPool SlaveParam),
      addSlave buf ptr node s = some s' → (Master.newSlave buf).isSome →
        (s' = s ↔ ¬(ptr.isSome ∧ node.isSome ∧ (s.queue.nodes.length : Int) < 1000))) := by
  refine ⟨fun _ _ _ _ _ _ _ _ _ _ _ h => ?_, fun _ _ _ _ _ _ h => ?_, fun _ _ _ _ _ h hn => ?_⟩
  · obtain ⟨⟨r, s₁⟩, hp, h⟩ := Option.bind_eq_some_iff.mp h
    cases h
    exact Pooled.putOwned_eq_iff hp
  · obtain ⟨⟨r, s₁⟩, hp, h⟩ := Option.bind_eq_some_iff.mp h
    cases h
    exact Pooled.putOwned_eq_iff hp
  · obtain ⟨p, hn⟩ := Option.isSome_iff_exists.mp hn
    simp only [addSlave, hn] at h
    obtain ⟨⟨r, s₁⟩, hp, h⟩ := Option.bind_eq_some_iff.mp h
    cases h
    exact Pooled.putOwned_eq_iff hp

-- Whatever fails, a call queues one node, for which the pool has given out the node and what it
-- owns, or leaves no trace.
theorem appended_or_unchanged :
    (∀ (β : Type) (buf : β) (size frameId type max ret : Int) (ptr node : Ptr)
      (s s' : Pooled (ShmFrame β) β),
      copyToShm buf size frameId type max ptr node s = some (ret, s') →
        (∃ p, s.Appended (shmFrame buf size frameId type p) [(p, buf)] s') ∨ s' = s) ∧
    (∀ (json : CStr) (ptr node : Ptr) (ret : Int) (s s' : HeadPool Unit),
      copyToMqQueue json ptr node s = some (ret, s') →
        (∃ p, s.Appended (mqNode p) [(p, .json (strncpy (mqLen json) json))] s') ∨ s' = s) ∧
    (∀ (buf : Text) (ptr node : Ptr) (s s' : HeadPool SlaveParam),
      addSlave buf ptr node s = some s' →
        (∃ new p, Master.newSlave buf = some new ∧
          s.Appended (slaveNode new p) [(p, .text buf)] s') ∨ s' = s) ∧
    (∀ (id : Int) (algName : CStr) (node : Ptr) (s s' : HeadPool ObjNode),
      HeadPool.addAlg id algName node s = some s' → AlgAppended id algName s s' ∨ s' = s) := by
  refine ⟨fun _ _ _ _ _ _ _ _ _ _ _ h => ?_, fun _ _ _ _ _ _ h => copyToMqQueue_cases h,
    fun _ _ _ _ _ h => addSlave_cases h, fun _ _ _ _ _ h => addAlg_cases h⟩
  exact (copyToShm_cases h).imp (fun ⟨_, p, _, ha⟩ => ⟨p, ha⟩) And.right

theorem appended_or_unchanged_witness :
    ∃ s', copyToMqQueue "a" (some 1) (some 2) { blocks := fun _ => none } = some (0, s') ∧
      ∃ p, Pooled.Appended (mqNode p) [(p, .json (strncpy 1024 "a"))] { blocks := fun _ => none }
        s' := by
  have hm : mqLen "a" = 1024 := by decide
  have ⟨s', h, hl⟩ : ∃ s', copyToMqQueue "a" (some 1) (some 2) { blocks := fun _ => none } =
      some (0, s') ∧ s'.queue.nodes.length = 1 := ⟨_, rfl, rfl⟩
  rw [← hm]
  refine ⟨s', h, (appended_or_unchanged.right.left _ _ _ _ _ _ h).resolve_right ?_⟩
  rintro rfl
  simp at hl

end

end Owned
