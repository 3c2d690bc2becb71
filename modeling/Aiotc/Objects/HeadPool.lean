import Aiotc.Objects.Misc
import Aiotc.Share.Pooled

-- misc.cpp: the blocks of `headsp` that objects and algorithms are made of.

open Share

-- What is in a block of `headsp` that is not a node.
inductive HeadData
  | taskParams (t : Settings)
  | cameraParams
  | text (buf : Text)
  | json (s : CStr)

abbrev HeadPool (α : Type) :=
  Pooled α HeadData

-- An object with its pointers, none of which is NULL once it is queued. `algQueue` is in its task.
structure ObjNode where
  id : Int
  name : CStr
  type : CStr
  subtype : CStr
  slave : Ptr
  task : Addr
  algQueue : AbsQueue AlgParams := {}
  originaldata : Addr
  objArg : Addr

-- The outcomes of the allocations of `addObj` and of its `sem_init`.
structure ObjOutcome where
  task : Ptr
  originaldata : Ptr
  semInit : Bool := true
  objArg : Ptr
  node : Ptr

namespace HeadPool

-- There is no pointer where `initObjArg` returns -1.
def initObjArg (type : CStr) (objArg : Ptr) (blocks : Blocks Addr (Chunk HeadData)) :
    Option (Ptr × Blocks Addr (Chunk HeadData)) :=
  if type = "camera" then do
    let blocks ← Blocks.malloc objArg (.data .cameraParams) blocks
    return (objArg, blocks)
  else
    some (none, blocks)

-- The part of `addObj` that has its task and its text. `new` lacks the pointer to what
-- `initObjArg` makes.
def initObj (type : CStr) (new : Addr → ObjNode) (out : ObjOutcome) (max : Int)
    (s : HeadPool ObjNode) : Option (HeadPool ObjNode) :=
  if out.semInit then do
    let (objArg, blocks) ← initObjArg type out.objArg s.blocks
    let s := { s with blocks := blocks }
    match objArg with
    | none   => return s
    | some g =>
      let (ret, s) ← s.putToShmQueue ⟨new g, 0, none⟩ max out.node
      return if ret ≠ 0 then { s with blocks := Blocks.free (new g).originaldata s.blocks } else s
  else
    some s

def addObj (buf : Text) (out : ObjOutcome) (max : Int) (slaveQueue : SlaveQueue)
    (s : HeadPool ObjNode) : Option (HeadPool ObjNode) :=
  let id := getIntValFromJson buf ["id"]
  let name := getStrValFromJson buf ["name"]
  let type := getStrValFromJson buf ["type"]
  let subtype := getStrValFromJson buf ["data", "subtype"]
  match name, type, subtype with
  | some name, some type, some subtype =>
    if id < 0 then
      some s
    else do
      let settings := (initObjTask.task buf {}).settings
      let blocks ← Blocks.malloc out.task (.data (.taskParams settings)) s.blocks
      let blocks ← Blocks.malloc out.originaldata (.data (.text buf)) blocks
      let s := { s with blocks := blocks }
      match out.task, out.originaldata with
      | some t, some d =>
        let new g := {
          id := id
          name := strncpy 32 name
          type := strncpy 16 type
          subtype := strncpy 16 subtype
          slave := initObjTask.slave buf slaveQueue none
          task := t
          originaldata := d
          objArg := g }
        initObj type new out max s
      | _, _ => return s
  | _, _, _ => some s

def conditionByObjId (id : Int) (x : Addr × NodeData ObjNode) : Int :=
  if x.2.name.id = id then 1 else 0

-- The blocks that `freeShmQueue` gives back.
def freeShmQueue {α : Type} (q : AbsQueue α) : List Addr :=
  q.nodes.flatMap fun x => x.2.arg.toList ++ [x.1]

def delObj (buf : Text) (s : HeadPool ObjNode) : HeadPool ObjNode :=
  let condition := conditionByObjId (getIntValFromJson buf ["id"])
  match s.queue.nodes.find? (condition · = 1) with
  | none        => s
  | some (a, p) =>
    let o := p.name
    let freed := freeShmQueue o.algQueue ++ [o.task, o.originaldata, o.objArg]
    { queue := (spec (.delFromQueue condition) s.queue).queue
      blocks := Blocks.freeAll (freed ++ p.arg.toList ++ [a]) s.blocks }

-- `addAlg` for the object that it finds.
def putAlg (algName : CStr) (node : Ptr) (o : ObjNode) (blocks : Blocks Addr (Chunk HeadData)) :
    Option (ObjNode × Blocks Addr (Chunk HeadData)) := do
  let (_, s) ← Pooled.putToShmQueue ⟨⟨strncpy 32 algName⟩, 0, none⟩ 100 node ⟨o.algQueue, blocks⟩
  return ({ o with algQueue := s.queue }, s.blocks)

-- Where `slave` of the object is set, it is told as well.
def addAlg (id : Int) (algName : CStr) (node : Ptr) (s : HeadPool ObjNode) :
    Option (HeadPool ObjNode) :=
  let condition := conditionByObjId id
  match s.queue.nodes.find? (condition · = 1) with
  | none        => some s
  | some (_, p) => do
    let (o, blocks) ← putAlg algName node p.name s.blocks
    let nodes := Queue.modifyFound (condition · = 1) (fun x => (x.1, { x.2 with name := o }))
      s.queue.nodes
    return { queue := { s.queue with nodes := nodes }, blocks := blocks }

-- A request from which `addObj` takes all fields that it asks for.
structure Fields (buf : Text) : Prop where
  id      : 0 ≤ getIntValFromJson buf ["id"]
  name    : (getStrValFromJson buf ["name"]).isSome
  type    : (getStrValFromJson buf ["type"]).isSome
  subtype : (getStrValFromJson buf ["data", "subtype"]).isSome

-- No part of `addObj` fails.
structure Succeeds (buf : Text) (out : ObjOutcome) (max : Int) (s : HeadPool ObjNode) : Prop where
  complete     : Complete buf
  task         : out.task.isSome
  originaldata : out.originaldata.isSome
  semInit      : out.semInit
  objArg       : out.objArg.isSome
  room         : s.queue.nodes.length < max
  node         : out.node.isSome

-- `addObj` stops before it has any block.
def Refused (buf : Text) (out : ObjOutcome) : Prop :=
  ¬Fields buf ∨ (out.task = none ∧ out.originaldata = none)

-- The new node is that of the object, and owns all that came with it.
def Added (buf : Text) (s s' : HeadPool ObjNode) : Prop :=
  ∃ o : ObjNode, o.id = getIntValFromJson buf ["id"] ∧ o.algQueue.nodes = [] ∧
    Pooled.Appended ⟨o, 0, none⟩ [(o.objArg, .cameraParams), (o.originaldata, .text buf),
      (o.task, .taskParams (initObjTask.task buf {}).settings)] s s'

def Unchanged (s s' : HeadPool ObjNode) : Prop :=
  s'.queue = s.queue ∧ Blocks.allocated s'.blocks = Blocks.allocated s.blocks

-- To delete the object gives back what adding it took.
def Restores (buf : Text) (s s' : HeadPool ObjNode) : Prop :=
  (∀ x ∈ s.queue.nodes, x.2.name.id ≠ getIntValFromJson buf ["id"]) →
    ∀ buf', getIntValFromJson buf' ["id"] = getIntValFromJson buf ["id"] →
      Blocks.allocated (delObj buf' s').blocks = Blocks.allocated s.blocks

section

variable {buf : Text} {out : ObjOutcome} {max : Int} {slaveQueue : SlaveQueue}
  {s s₁ s' : HeadPool ObjNode} {type : CStr} {new : Addr → ObjNode} {d t : Addr}
  {m : Blocks Addr (Chunk HeadData)} {x y : Chunk HeadData}

-- What of `Succeeds` is left when task and text are there.
def Follows (type : CStr) (out : ObjOutcome) (max : Int) (s : HeadPool ObjNode) : Prop :=
  out.semInit ∧ (type = "camera" ∧ out.objArg.isSome) ∧
    s.queue.nodes.length < max ∧ out.node.isSome

theorem complete_iff :
    Complete buf ↔ Fields buf ∧ getStrValFromJson buf ["type"] = some "camera" := by
  constructor
  case mp  => exact fun h => ⟨⟨h.id, h.name, by simp [h.type], h.subtype⟩, h.type⟩
  case mpr => exact fun ⟨h, ht⟩ => ⟨h.id, h.name, ht, h.subtype⟩

theorem initObjArg_cases {objArg p : Ptr} {blocks : Blocks Addr (Chunk HeadData)}
    (h : initObjArg type objArg m = some (p, blocks)) :
    (∃ g, (type = "camera" ∧ objArg.isSome) ∧ p = some g ∧
      Blocks.malloc (some g) (.data .cameraParams) m = some blocks) ∨
    (¬(type = "camera" ∧ objArg.isSome) ∧ p = none ∧ blocks = m) := by
  simp only [initObjArg] at h
  split at h
  case isFalse ht =>
    cases h
    exact .inr ⟨fun hc => ht hc.left, rfl, rfl⟩
  case isTrue ht =>
    have ⟨_, hm, h⟩ := Option.bind_eq_some_iff.mp h
    cases objArg <;> cases h
    case none =>
      cases hm
      exact .inr ⟨by simp, rfl, rfl⟩
    case some g => exact .inl ⟨g, ⟨ht, rfl⟩, rfl, hm⟩

-- Either the new node joins the two blocks that are there, or one of them is left over.
theorem initObj_cases (h : initObj type new out max s = some s')
    (hd : ∀ g, (new g).originaldata = d) (hg : Blocks.Gains [(d, x), (t, y)] m s.blocks) :
    (Follows type out max s ∧ ∃ a g,
      s'.queue = { s.queue with nodes := s.queue.nodes ++ [(a, ⟨new g, 0, none⟩)] } ∧
      Blocks.Gains [(a, .node), (g, .data .cameraParams), (d, x), (t, y)] m s'.blocks) ∨
    (¬Follows type out max s ∧ s'.queue = s.queue ∧
      ∃ z ks, Blocks.Gains (z :: ks) m s'.blocks) := by
  simp only [initObj] at h
  split at h
  case isFalse hs =>
    cases h
    exact .inr ⟨fun hc => hs hc.left, rfl, _, _, hg⟩
  case isTrue hs =>
    obtain ⟨⟨p, blocks⟩, ha, h⟩ := Option.bind_eq_some_iff.mp h
    rcases initObjArg_cases ha with ⟨g, hc, rfl, hm⟩ | ⟨hc, rfl, rfl⟩
    case inr =>
      cases h
      exact .inr ⟨fun hf => hc hf.right.left, rfl, _, _, hg⟩
    case inl =>
      obtain ⟨⟨ret, s₂⟩, hp, h⟩ := Option.bind_eq_some_iff.mp h
      cases h
      have hg := hg.malloc hm
      rcases Pooled.putToShmQueue_cases hp with ⟨hl, rfl, a, hn, ha, hq⟩ | ⟨hn, rfl, rfl⟩
      case inl => exact .inl ⟨⟨hs, hc, hl, by simp [hn]⟩, a, g, hq, hg.malloc ha⟩
      case inr =>
        rw [hd]
        exact .inr ⟨fun hf => hn hf.right.right, rfl, _, _, hg.free [_]⟩

theorem addObj_of_not_fields (hf : ¬Fields buf) : addObj buf out max slaveQueue s = some s := by
  simp only [addObj]
  split
  case h_1 name type subtype hn ht hs =>
    split
    case isTrue     => rfl
    case isFalse hi =>
      exact absurd ⟨Int.not_lt.mp hi, by simp [hn], by simp [ht], by simp [hs]⟩ hf
  case h_2 => rfl

-- `addObj` does all or nothing, or something of it is left over in the pool.
theorem addObj_cases (h : addObj buf out max slaveQueue s = some s') :
    (Succeeds buf out max s ∧ Added buf s s') ∨ (Refused buf out ∧ s' = s) ∨
      (¬Succeeds buf out max s ∧ ¬Refused buf out ∧ s'.queue = s.queue ∧
        ∃ x ks, Blocks.Gains (x :: ks) s.blocks s'.blocks) := by
  by_cases hf : Fields buf
  case neg =>
    rw [addObj_of_not_fields hf] at h
    exact .inr (.inl ⟨.inl hf, (Option.some.inj h).symm⟩)
  case pos =>
    obtain ⟨name, hn⟩ := Option.isSome_iff_exists.mp hf.name
    obtain ⟨type, ht⟩ := Option.isSome_iff_exists.mp hf.type
    obtain ⟨subtype, hs⟩ := Option.isSome_iff_exists.mp hf.subtype
    simp only [addObj, hn, ht, hs, Int.not_lt.mpr hf.id, if_false] at h
    obtain ⟨b₁, hm₁, h⟩ := Option.bind_eq_some_iff.mp h
    obtain ⟨b₂, hm₂, h⟩ := Option.bind_eq_some_iff.mp h
    rcases Blocks.malloc_malloc_cases hm₁ hm₂ with
      ⟨t, d, hot, hod, hg⟩ | ⟨hot, hod, rfl⟩ | ⟨ho, x, hg⟩
    case inl =>
      simp only [hot, hod] at h
      have hr : ¬Refused buf out := by simp [Refused, hf, hot]
      rcases initObj_cases h (fun _ => rfl) hg with
        ⟨⟨hse, hc, hl, hno⟩, a, g, hq, hg⟩ | ⟨hn, hq, hg⟩
      case inl =>
        have hc' : Complete buf := complete_iff.mpr ⟨hf, ht.trans (congrArg some hc.left)⟩
        have hs' : Succeeds buf out max s :=
          ⟨hc', by simp [hot], by simp [hod], hse, hc.right, hl, hno⟩
        exact .inl ⟨hs', _, rfl, rfl, a, hq, hg⟩
      case inr =>
        refine .inr (.inr ⟨fun hc => hn ?_, hr, hq, hg⟩)
        have hty := Option.some.inj (ht.symm.trans hc.complete.type)
        exact ⟨hc.semInit, ⟨hty, hc.objArg⟩, hc.room, hc.node⟩
    case inr.inl =>
      simp only [hot, hod] at h
      exact .inr (.inl ⟨.inr ⟨hot, hod⟩, (Option.some.inj h).symm⟩)
    case inr.inr =>
      have hs' : s' = { s with blocks := b₂ } := by
        split at h
        case h_1 hot hod => simp [hot, hod] at ho
        case h_2         => exact (Option.some.inj h).symm
      rw [hs']
      refine .inr (.inr ⟨fun hc => ?_, ?_, rfl, x, [], hg⟩)
      · simpa [ho.mpr hc.originaldata] using hc.task
      · simp only [Refused, hf, not_true_eq_false, false_or]
        exact fun ⟨hot, hod⟩ => by simpa [hod] using ho.mp hot

theorem Succeeds.not_refused (h : Succeeds buf out max s) : ¬Refused buf out := by
  rintro (hf | ⟨ht, -⟩)
  · exact hf (complete_iff.mp h.complete).left
  · simpa [ht] using h.task

theorem queue_delObj (buf : Text) (s : HeadPool ObjNode) : (delObj buf s).queue =
    (spec (.delFromQueue (conditionByObjId (getIntValFromJson buf ["id"]))) s.queue).queue := by
  simp only [delObj]
  split
  case h_1 hn =>
    simp only [List.find?_eq_none, decide_eq_true_eq] at hn
    simp [spec, AbsQueue.del_of_none hn]
  case h_2 => rfl

theorem Added.length (h : Added buf s s') :
    s'.queue.nodes.length = s.queue.nodes.length + 1 := by
  have ⟨o, _, _, a, hq, _⟩ := h
  simp [hq]

-- The new object is found by its id, and all of its blocks are freed.
theorem Added.restores (h : Added buf s s') : Restores buf s s' := by
  intro hn buf' hb
  obtain ⟨o, hi, ha, a, hq, hg⟩ := h
  have hf : s'.queue.nodes.find? (conditionByObjId (getIntValFromJson buf' ["id"]) · = 1) =
      some (a, ⟨o, 0, none⟩) := by
    have hn' : ∀ x ∈ s.queue.nodes, ¬(conditionByObjId (getIntValFromJson buf' ["id"]) x = 1) := by
      intro x hx
      simp [conditionByObjId, hb, hn x hx]
    rw [hq, List.find?_append, List.find?_eq_none.mpr (by simpa using hn')]
    simp [conditionByObjId, hi, hb]
  simp only [delObj, hf]
  rw [hg.freeAll]
  simp [freeShmQueue, ha]
  grind

-- `addObj` is done as a whole or leaves no trace if and only if either nothing fails or it stops
-- before it has a block. At all other ends it keeps what it has.
theorem atomic_iff (h : addObj buf out max slaveQueue s = some s') :
    ((Added buf s s' ∨ Unchanged s s') ∧ (Added buf s s' → Restores buf s s')) ↔
      Succeeds buf out max s ∨ Refused buf out := by
  rcases addObj_cases h with ⟨hs, ha⟩ | ⟨hr, rfl⟩ | ⟨hs, hr, hq, x, ks, hg⟩
  case inl     => exact iff_of_true ⟨.inl ha, Added.restores⟩ (.inl hs)
  case inr.inl => exact iff_of_true ⟨.inr ⟨rfl, rfl⟩, Added.restores⟩ (.inr hr)
  case inr.inr =>
    refine iff_of_false (fun ⟨hc, _⟩ => ?_) (not_or.mpr ⟨hs, hr⟩)
    rcases hc with ha | hu
    · have hl := ha.length
      simp [hq] at hl
    · exact hg.allocated_ne hu.right

end

section

def camera : Text :=
  some <| .object [
    ("id", .number 1),
    ("name", .string "gate"),
    ("type", .string "camera"),
    ("data", .object [("subtype", .string "rtsp")])]

-- Nothing is in use, and the outcomes of the allocations but the last are the first addresses.
def empty : HeadPool ObjNode where
  blocks _ := none

def outcome (node : Ptr) : ObjOutcome where
  task := some 1
  originaldata := some 2
  objArg := some 3
  node := node

theorem atomic_iff_witness :
    ∃ s', addObj camera (outcome (some 4)) 1 [] empty = some s' ∧ Added camera empty s' ∧
      Blocks.allocated (delObj camera s').blocks = ∅ := by
  have hc : Complete camera := ⟨by decide, by decide, by decide, by decide⟩
  have hs : Succeeds camera (outcome (some 4)) 1 empty := ⟨hc, rfl, rfl, rfl, rfl, by decide, rfl⟩
  have ⟨s', h, hl⟩ : ∃ s', addObj camera (outcome (some 4)) 1 [] empty = some s' ∧
      s'.queue.nodes.length = 1 := ⟨_, rfl, rfl⟩
  have ⟨hu, hr⟩ := (atomic_iff h).mpr (.inl hs)
  have ha : Added camera empty s' := hu.resolve_right fun hu => by simp [hu.left, empty] at hl
  refine ⟨s', h, ha, (hr ha (by decide) camera rfl).trans ?_⟩
  simp [Blocks.allocated, empty]

-- There is no memory for the node. The text is freed, but its task and the camera stay.
theorem not_atomic : ¬∀ (buf : Text) (out : ObjOutcome) (max : Int) (slaveQueue : SlaveQueue)
    (s s' : HeadPool ObjNode), addObj buf out max slaveQueue s = some s' →
      (Added buf s s' ∨ Unchanged s s') ∧ (Added buf s s' → Restores buf s s') := by
  intro h
  have ⟨hc, _⟩ := h camera (outcome none) 1 [] empty _ rfl
  rcases hc with ha | hu
  · exact absurd ha.length (by decide)
  · have hm : 1 ∈ Blocks.allocated empty.blocks := by
      rw [← hu.right]
      exact fun hc => nomatch hc
    exact hm rfl

end

end HeadPool

-- Seen by the ids of its objects the queue is the one that is a list only.

def ObjOutcome.malloc (out : ObjOutcome) : ObjMalloc where
  task := out.task.isSome
  originaldata := out.originaldata.isSome
  semInit := out.semInit
  objArg := out.objArg.isSome
  node := out.node.isSome

namespace HeadPool

def ids (s : HeadPool ObjNode) : List Int :=
  s.names.map ObjNode.id

end HeadPool

section

variable {buf : Text} {out : ObjOutcome} {max : Int} {ap : AiotcParams} {s s' : HeadPool ObjNode}
  {q : List ObjParam}

theorem succeeds_iff (hq : s.ids = q.map ObjParam.id) :
    HeadPool.Succeeds buf out max s ↔ Complete buf ∧ out.malloc.Ok ∧ q.length < max := by
  have hl : s.queue.nodes.length = q.length := by
    simpa [HeadPool.ids, Share.Pooled.names] using congrArg List.length hq
  constructor
  case mp =>
    intro h
    exact ⟨h.complete, ⟨h.task, h.originaldata, h.semInit, h.objArg, h.node⟩, hl ▸ h.room⟩
  case mpr =>
    rintro ⟨hc, h, hr⟩
    exact ⟨hc, h.task, h.originaldata, h.semInit, h.objArg, hl ▸ hr, h.node⟩

theorem ids_addObj (h : HeadPool.addObj buf out max ap.masterArgs.slaveQueue s = some s')
    (hq : s.ids = q.map ObjParam.id) :
    s'.ids = (addObj buf out.malloc max ap q).map ObjParam.id := by
  have hs : HeadPool.Succeeds buf out max s ↔ _ := succeeds_iff hq
  -- Both make an object in the same cases.
  rcases addObj_cases buf out.malloc max ap q with ⟨hc, hm, hl, o, ho, ha⟩ | ⟨hn, ha⟩
  case inl =>
    rcases HeadPool.addObj_cases h with ⟨-, o', hi, -, a, hq', -⟩ | ⟨hr, rfl⟩ | ⟨hn, -⟩
    case inl => simp [ha, ho.id, ← hq, HeadPool.ids, Share.Pooled.names, hq', hi]
    case inr.inl => exact absurd hr (hs.mpr ⟨hc, hm, hl⟩).not_refused
    case inr.inr => exact absurd (hs.mpr ⟨hc, hm, hl⟩) hn
  case inr =>
    rcases HeadPool.addObj_cases h with ⟨hc, -⟩ | ⟨-, rfl⟩ | ⟨-, -, hq', -⟩
    case inl     => exact absurd (hs.mp hc) hn
    case inr.inl => rw [ha, hq]
    case inr.inr =>
      rw [ha, ← hq]
      simp only [HeadPool.ids, Share.Pooled.names, hq']

theorem ids_delObj (hq : s.ids = q.map ObjParam.id) :
    (HeadPool.delObj buf s).ids = (delObj buf q).map ObjParam.id := by
  have hd : (delObj buf q).map ObjParam.id =
      (q.map ObjParam.id).eraseP (· = getIntValFromJson buf ["id"]) := by
    simp only [delObj, Queue.delFromQueue, List.eraseP_map]
    rfl
  rw [hd, ← hq]
  simp only [HeadPool.ids, Share.Pooled.names, List.map_map, List.eraseP_map,
    HeadPool.queue_delObj, Share.spec, Share.AbsQueue.del]
  congr 2
  funext x
  simp [HeadPool.conditionByObjId]

theorem algQueue_putAlg {algName : CStr} {node : Ptr} {o o' : ObjNode}
    {m m' : Blocks Addr (Chunk HeadData)} {p : ObjParam}
    (h : HeadPool.putAlg algName node o m = some (o', m'))
    (hp : p.task.algQueue = o.algQueue.nodes.map (·.2.name)) :
    (addAlg algName node.isSome p).task.algQueue = o'.algQueue.nodes.map (·.2.name) := by
  have ⟨(r, s), hr, h⟩ := Option.bind_eq_some_iff.mp h
  cases h
  have hn := congrArg Prod.snd (Pooled.names_putToShmQueue hr)
  simp only [addAlg, hp]
  exact hn.symm

end
