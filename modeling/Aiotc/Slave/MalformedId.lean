import Aiotc.Slave.ObjIds

-- Requests to a slave in which the member "id" is missing or is no number.

open Queue

namespace Slave

-- The member as JSON has it, with names that are told apart by the case of their letters.
def member (name : CStr) : Text → Option CJson
  | some (.object child) => (child.find? (·.1 = name)).map Prod.snd
  | _                    => none

def Malformed (buf : Text) : Prop :=
  ∀ n, member "id" buf ≠ some (.number n)

-- The handlers that look for an object, and that of /obj/add.
def handlers : List Url :=
  [.objDel, .streamStart, .streamStop, .previewStart, .previewStop, .recordStart, .recordStop,
    .captureStart, .captureStop, .taskStart, .taskStop]

-- Whatever the allocations yield, the objects stay what they are.
def Untouched (ap : AiotcParams) (buf : Text) : Prop :=
  ∀ url ∈ .objAdd :: handlers, ∀ malloc, (rest url buf malloc ap).1.objQueue = ap.objQueue

-- The item that cJSON takes for the id, if any.
def idItem (buf : Text) : Option CJson := do
  (← buf).getObjectItem "id"

-- What `addObj` asks for next to the id.
structure Described (buf : Text) : Prop where
  name    : (getStrValFromJson buf ["name"]).isSome
  type    : getStrValFromJson buf ["type"] = some "camera"
  subtype : (getStrValFromJson buf ["data", "subtype"]).isSome

-- What cJSON takes for the id stands for no object, neither one that is there nor a new one.
def Harmless (ap : AiotcParams) (buf : Text) : Prop :=
  ∀ j, idItem buf = some j → (∀ o ∈ ap.objQueue, o.id ≠ j.valueint) ∧
    ¬(0 ≤ j.valueint ∧ Described buf ∧ ap.objQueue.length < ap.configArgs.slaveObjMax)

section

variable {ap ap' : AiotcParams} {buf : Text} {id : Int}

theorem getIntValFromJson_id (buf : Text) :
    getIntValFromJson buf ["id"] = ((idItem buf).map CJson.valueint).getD (-1) := by
  simp only [getIntValFromJson, getSubFromJson, idItem]
  cases buf <;> simp [List.foldlM_cons]

theorem complete_iff_described :
    Complete buf ↔ 0 ≤ getIntValFromJson buf ["id"] ∧ Described buf :=
  ⟨fun h => ⟨h.id, h.name, h.type, h.subtype⟩, fun ⟨hi, h⟩ => ⟨hi, h.name, h.type, h.subtype⟩⟩

theorem modifyFound_of_not_mem {f : ObjParam → ObjParam} {q : List ObjParam}
    (h : ∀ o ∈ q, o.id ≠ id) : modifyFound (conditionByObjId id) f q = q := by
  rcases modifyFound_cases (conditionByObjId id) f q with ⟨q₁, o, q₂, rfl, hs, -⟩ | ⟨-, -, hm⟩
  case inl =>
    have ⟨ho, hi⟩ := searchFromQueue_some hs
    exact absurd (by simpa [conditionByObjId] using hi) (h o ho)
  case inr => exact hm

theorem delObj_of_not_mem {q : List ObjParam}
    (h : ∀ o ∈ q, o.id ≠ getIntValFromJson buf ["id"]) : delObj buf q = q := by
  apply List.eraseP_of_forall_not
  intro o ho
  simpa [conditionByObjId] using h o ho

-- No handler does anything about an id that no object has.
theorem rest_of_not_mem (h : ∀ o ∈ ap.objQueue, o.id ≠ getIntValFromJson buf ["id"]) {url : Url}
    (hu : url ∈ handlers) (malloc : ObjMalloc) :
    (rest url buf malloc ap).1.objQueue = ap.objQueue := by
  have hs : ∀ f, (requestSetting f buf ap).objQueue = ap.objQueue :=
    fun _ => modifyFound_of_not_mem h
  have ht : ∀ f, (requestTask f buf ap).objQueue = ap.objQueue := by
    intro f
    simp only [requestTask]
    split
    case h_1 => rfl
    case h_2 =>
      split
      case isTrue  => rfl
      case isFalse => exact modifyFound_of_not_mem h
  cases url
  case objAdd       => simp [handlers] at hu
  case systemInit   => simp [handlers] at hu
  case systemSlave  => simp [handlers] at hu
  case objDel       => exact delObj_of_not_mem h
  case previewStart =>
    simp only [rest, requestPreviewStart]
    split
    case h_1 => rfl
    case h_2 =>
      split
      case isTrue  => rfl
      case isFalse => exact hs _
  case taskStart    => exact ht _
  case taskStop     => exact ht _
  all_goals exact hs _

-- What any body does, by the id that `getIntValFromJson` returns.
theorem untouched_iff_id : Untouched ap buf ↔
    (∀ o ∈ ap.objQueue, o.id ≠ getIntValFromJson buf ["id"]) ∧
    ¬(Complete buf ∧ ap.objQueue.length < ap.configArgs.slaveObjMax) := by
  constructor
  case mp =>
    intro h
    constructor
    case left =>
      -- A body for an object that is there could delete it.
      intro o ho hi
      have hd : delObj buf ap.objQueue = ap.objQueue := h .objDel (by simp [handlers]) {}
      have hp := List.eraseP_eq_self_iff.mp hd o ho
      simp [conditionByObjId, hi] at hp
    case right =>
      rintro ⟨hc, hl⟩
      have ha := h .objAdd List.mem_cons_self {}
      rcases addObj_cases buf {} ap.configArgs.slaveObjMax ap ap.objQueue with
        ⟨-, -, -, o, -, hq⟩ | ⟨hn, -⟩
      case inl => simp [rest, requestObjAdd, updateLoad, hq] at ha
      case inr => exact hn ⟨hc, ⟨rfl, rfl, rfl, rfl, rfl⟩, hl⟩
  case mpr =>
    rintro ⟨h, hn⟩ url hu malloc
    cases List.mem_cons.mp hu
    case inr hu => exact rest_of_not_mem h hu malloc
    case inl hu =>
      subst hu
      rcases addObj_cases buf malloc ap.configArgs.slaveObjMax ap ap.objQueue with
        ⟨hc, -, hl, -⟩ | ⟨-, hq⟩
      · exact absurd ⟨hc, hl⟩ hn
      · simp [rest, requestObjAdd, updateLoad, hq]

-- No object gets a negative id.
theorem Step.nonneg {op : Op} (h : ∀ i ∈ objIds ap, 0 ≤ i) (e : Step ap op ap') :
    ∀ i ∈ objIds ap', 0 ≤ i := by
  intro i hi
  cases e.effect
  case add hc _ _ he =>
    rw [he] at hi
    cases List.mem_append.mp hi
    case inl hi => exact h i hi
    case inr hi => exact List.mem_singleton.mp hi ▸ hc.id
  case del hd =>
    rw [objIds, hd] at hi
    exact h i (((delObj_sublist _ ap.objQueue).map ObjParam.id).subset hi)
  case same he _ => exact h i (he ▸ hi)

-- In every state that a slave gets into a request changes no object and adds none, whatever its
-- body, if and only if what is taken for its id stands for none.
theorem untouched_iff {cfg : ConfigParams} {tr : List (AiotcParams × Op)}
    (r : Run Step { configArgs := cfg } tr ap) (buf : Text) :
    Untouched ap buf ↔ Harmless ap buf := by
  have hn := r.invariant (I := fun ap => ∀ i ∈ objIds ap, 0 ≤ i)
    (fun _ _ _ h e => Step.nonneg h e) (by simp [objIds])
  rw [untouched_iff_id, complete_iff_described, getIntValFromJson_id, Harmless]
  cases idItem buf
  case some j => simp [and_assoc]
  case none =>
    have hi : ∀ o ∈ ap.objQueue, o.id ≠ -1 := by
      intro o ho hi
      have h := hn o.id (List.mem_map_of_mem ho)
      simp [hi] at h
    simpa using hi

end

section

-- An id that is a string.
def named : Text :=
  some (.object [("id", .string "gate")])

theorem untouched_iff_witness :
    Untouched ([Op.request .objAdd (camera 5) {}].foldl (fun ap op => exec op ap)
      { configArgs := cfg }) named := by
  apply (untouched_iff (Run.of_trace exec _ _) named).mpr
  intro j hj
  cases Option.some.inj hj
  refine ⟨by decide, fun ⟨_, hd, _⟩ => ?_⟩
  exact absurd hd.name (by decide)

-- The string is read as 0, and so the object 0 is deleted.
theorem not_untouched : ¬∀ (cfg : ConfigParams) (tr : List (AiotcParams × Op)) (ap : AiotcParams)
    (buf : Text), Run Step { configArgs := cfg } tr ap → Malformed buf → Untouched ap buf := by
  intro h
  have hm : Malformed named := fun n hc => nomatch hc
  have hu := h cfg _ _ named (Run.of_trace exec [.request .objAdd (camera 0) {}] _) hm
  have hd := congrArg List.length (hu .objDel (by simp [handlers]) {})
  exact absurd hd (by decide)

end

end Slave
