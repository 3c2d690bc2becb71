import Aiotc.Library.Blocks
import Aiotc.Share.Queue

-- The queues together with the pool in shared memory from which their nodes are allocated, and what
-- these own.

namespace Share

-- A block is a node of some queue, or holds what its owner needs.
inductive Chunk (β : Type)
  | node
  | data (b : β)

structure Pooled (α β : Type) where
  queue : AbsQueue α := {}
  blocks : Blocks Addr (Chunk β)

namespace Pooled

variable {α β : Type}

-- In the operations below `none` is an allocation that gives out what is in use.

def putToShmQueue (new : NodeData α) (max : Int) (node : Ptr) (s : Pooled α β) :
    Option (Int × Pooled α β) :=
  if s.queue.nodes.length < max then do
    let blocks ← Blocks.malloc node .node s.blocks
    match node with
    | none   => return (-1, s)
    | some a =>
      let queue := { s.queue with nodes := s.queue.nodes ++ [(a, new)] }
      return (0, { queue := queue, blocks := blocks })
  else
    some (-1, s)

-- What `copyToShm`, `copyToMqQueue` and `addSlave` have in common: the node refers to a block with
-- `b` at `ptr`, which is given back where the node cannot be queued.
def putOwned (b : β) (new : Addr → NodeData α) (max : Int) (ptr node : Ptr) (s : Pooled α β) :
    Option (Int × Pooled α β) := do
  let blocks ← Blocks.malloc ptr (.data b) s.blocks
  match ptr with
  | none   => return (-1, s)
  | some p =>
    let (ret, s) ← putToShmQueue (new p) max node { s with blocks := blocks }
    return (ret, if ret ≠ 0 then { s with blocks := Blocks.free p s.blocks } else s)

-- `s'` has one more node, and the pool gained it and the blocks `owned` that it refers to.
def Appended (new : NodeData α) (owned : List (Addr × β)) (s s' : Pooled α β) : Prop :=
  ∃ a, s'.queue = { s.queue with nodes := s.queue.nodes ++ [(a, new)] } ∧
    Blocks.Gains ((a, .node) :: owned.map fun x => (x.1, .data x.2)) s.blocks s'.blocks

def names (s : Pooled α β) : List α :=
  s.queue.nodes.map fun x => x.2.name

section

variable {new : NodeData α} {max : Int} {node ptr : Ptr} {s s' : Pooled α β} {ret : Int} {b : β}

theorem putToShmQueue_cases (h : putToShmQueue new max node s = some (ret, s')) :
    (s.queue.nodes.length < max ∧ ret = 0 ∧ ∃ a, node = some a ∧
      Blocks.malloc (some a) .node s.blocks = some s'.blocks ∧
      s'.queue = { s.queue with nodes := s.queue.nodes ++ [(a, new)] }) ∨
    (¬(s.queue.nodes.length < max ∧ node.isSome) ∧ ret = -1 ∧ s' = s) := by
  simp only [putToShmQueue] at h
  split at h
  case isFalse hl =>
    cases h
    exact .inr ⟨fun hc => hl hc.left, rfl, rfl⟩
  case isTrue hl =>
    have ⟨blocks, hm, h⟩ := Option.bind_eq_some_iff.mp h
    cases node <;> cases h
    case none   => exact .inr ⟨by simp, rfl, rfl⟩
    case some a => exact .inl ⟨hl, rfl, a, rfl, hm, rfl⟩

-- The queue is as the specification of the queues has it.
theorem putToShmQueue_spec (h : putToShmQueue new max node s = some (ret, s')) :
    ret = (spec (.putToShmQueue new max node) s.queue).ret ∧
    s'.queue = (spec (.putToShmQueue new max node) s.queue).queue := by
  simp only [spec, AbsQueue.put]
  rcases putToShmQueue_cases h with ⟨hl, rfl, a, rfl, -, hq⟩ | ⟨hn, rfl, rfl⟩
  case inl => simp [hl, hq]
  case inr =>
    by_cases hl : s'.queue.nodes.length < max
    case neg => simp [hl]
    case pos =>
      cases node
      case none => simp [hl]
      case some => simp [hl] at hn

theorem names_putToShmQueue (h : putToShmQueue new max node s = some (ret, s')) :
    (ret, s'.names) = Queue.putToShmQueue new.name max node.isSome s.names := by
  rcases Queue.putToShmQueue_cases new.name max node.isSome s.names with ⟨hp, hq⟩ | ⟨hp, hq⟩ <;>
    rcases putToShmQueue_cases h with ⟨hl, rfl, a, rfl, -, he⟩ | ⟨hn, rfl, rfl⟩ <;>
    simp_all [names]

theorem putOwned_cases {new : Addr → NodeData α}
    (h : putOwned b new max ptr node s = some (ret, s')) :
    (ret = 0 ∧ ∃ p, ptr = some p ∧ Appended (new p) [(p, b)] s s') ∨ (ret = -1 ∧ s' = s) := by
  cases ptr
  case none =>
    cases h
    exact .inr ⟨rfl, rfl⟩
  case some p =>
    have ⟨blocks, hm, h⟩ := Option.bind_eq_some_iff.mp h
    have ⟨(r, s₁), hp, h⟩ := Option.bind_eq_some_iff.mp h
    cases h
    rcases putToShmQueue_cases hp with ⟨-, rfl, a, -, ha, hq⟩ | ⟨-, rfl, rfl⟩
    case inl => exact .inl ⟨rfl, p, rfl, a, hq, ((Blocks.Gains.nil _).malloc hm).malloc ha⟩
    case inr =>
      refine .inr ⟨rfl, ?_⟩
      simp [Blocks.free_malloc hm]

theorem Appended.ne {owned : List (Addr × β)} (h : Appended new owned s s') : s' ≠ s := by
  obtain ⟨a, hq, -⟩ := h
  rintro rfl
  have := congrArg (·.nodes.length) hq
  simp at this

-- A node is queued wherever there is the memory and the room for it.
theorem putOwned_eq_iff {new : Addr → NodeData α}
    (h : putOwned b new max ptr node s = some (ret, s')) :
    s' = s ↔ ¬(ptr.isSome ∧ node.isSome ∧ s.queue.nodes.length < max) := by
  cases ptr
  case none =>
    cases h
    simp
  case some p =>
    have ha := putOwned_cases h
    have ⟨blocks, hm, h⟩ := Option.bind_eq_some_iff.mp h
    have ⟨(r, s₁), hp, h⟩ := Option.bind_eq_some_iff.mp h
    cases h
    rcases putToShmQueue_cases hp with ⟨hl, rfl, a, rfl, -⟩ | ⟨hn, rfl, rfl⟩
    case inl =>
      obtain ⟨-, p, -, ha⟩ := ha.resolve_right fun hr => absurd hr.left (by decide)
      exact iff_of_false ha.ne (by simpa using hl)
    case inr =>
      have hs := (ha.resolve_left fun hr => absurd hr.left (by decide)).right
      exact iff_of_true hs fun hc => hn ⟨hc.right.right, hc.right.left⟩

theorem exists_putToShmQueue (new : NodeData α) (max : Int) (hn : ∀ a ∈ node, s.blocks a = none) :
    ∃ r, putToShmQueue new max node s = some r := by
  simp only [putToShmQueue]
  split
  case isFalse => exact ⟨_, rfl⟩
  case isTrue =>
    have ⟨blocks, hm⟩ := Blocks.exists_malloc .node hn
    rw [hm]
    cases node <;> exact ⟨_, rfl⟩

-- There is a result for all outcomes that the allocations can have.
theorem exists_putOwned (b : β) (new : Addr → NodeData α) (max : Int)
    (hp : ∀ p ∈ ptr, s.blocks p = none) (hn : ∀ a ∈ node, s.blocks a = none ∧ a ∉ ptr) :
    ∃ r, putOwned b new max ptr node s = some r := by
  have ⟨blocks, hm⟩ := Blocks.exists_malloc (.data b) hp
  rw [putOwned, hm]
  cases ptr
  case none => exact ⟨_, rfl⟩
  case some p =>
    have hf : ∀ a ∈ node, blocks a = none := by
      intro a ha
      have ⟨hb, hap⟩ := hn a ha
      have hg := (Blocks.Gains.nil s.blocks).malloc hm
      rw [hg.frame a (by simpa [eq_comm] using hap), hb]
    have ⟨r, hr⟩ := exists_putToShmQueue (s := ⟨s.queue, blocks⟩) (new p) max hf
    simp only [bind, Option.bind_some, hr]
    exact ⟨_, rfl⟩

theorem putOwned_spec {new : Addr → NodeData α} {p : Addr}
    (h : putOwned b new max (some p) node s = some (ret, s')) :
    ret = (spec (.putToShmQueue (new p) max node) s.queue).ret ∧
    s'.queue = (spec (.putToShmQueue (new p) max node) s.queue).queue := by
  have ⟨blocks, hm, h⟩ := Option.bind_eq_some_iff.mp h
  have ⟨(r, s₁), hp, h⟩ := Option.bind_eq_some_iff.mp h
  cases h
  have ⟨hr, hq⟩ := putToShmQueue_spec hp
  refine ⟨hr, ?_⟩
  split <;> exact hq

end

end Pooled

end Share
