import Aiotc.Slave.Rest

-- The ids of the objects that a slave holds.

namespace Slave

variable {ap ap' : AiotcParams}

def objIds (ap : AiotcParams) : List Int :=
  ap.objQueue.map ObjParam.id

theorem rest_objIds {url : Url} (ha : url ≠ .objAdd) (hd : url ≠ .objDel) (buf : Text)
    (malloc : ObjMalloc) : objIds (rest url buf malloc ap).1 = objIds ap := by
  simpa [objIds, Function.comp_def, fixed] using
    congrArg (List.map ObjParam.id) (rest_fixed ha hd buf malloc)

-- The steps by what they do to the ids of the queue.
inductive Effect (ap : AiotcParams) (op : Op) (ap' : AiotcParams) : Prop
  | add (buf : Text) (malloc : ObjMalloc) : op = .request .objAdd buf malloc → Complete buf →
    malloc.Ok → ap.objQueue.length < ap.configArgs.slaveObjMax →
    objIds ap' = objIds ap ++ [getIntValFromJson buf ["id"]] → Effect ap op ap'
  | del (buf : Text) (malloc : ObjMalloc) : op = .request .objDel buf malloc →
    ap'.objQueue = delObj buf ap.objQueue → Effect ap op ap'
  | same : objIds ap' = objIds ap →
    (∀ buf malloc, op = .request .objAdd buf malloc → ¬(Complete buf ∧ malloc.Ok ∧
      ap.objQueue.length < ap.configArgs.slaveObjMax)) → Effect ap op ap'

theorem Step.effect {op : Op} (e : Step ap op ap') : Effect ap op ap' := by
  cases e
  cases op
  case restart => exact .same rfl (by simp)
  case request url buf malloc =>
    cases url
    case objAdd =>
      rcases addObj_cases buf malloc ap.configArgs.slaveObjMax ap ap.objQueue with
        ⟨hc, hm, hl, o, ho, ha⟩ | ⟨hn, ha⟩
      case inl =>
        refine .add buf malloc rfl hc hm hl ?_
        simp [objIds, exec, rest, requestObjAdd, updateLoad, ha, ho.id]
      case inr =>
        refine .same (by simp [objIds, exec, rest, requestObjAdd, updateLoad, ha]) ?_
        rintro _ _ ⟨⟩
        exact hn
    case objDel => exact .del buf malloc rfl rfl
    all_goals exact .same (rest_objIds (by decide) (by decide) buf malloc) (by simp)

-- Ids are distinct, so that a `delObj` of an id leaves no object with that id behind.
structure Distinct (ap : AiotcParams) : Prop where
  nodup : (objIds ap).Nodup
  del   : ∀ buf, ∀ o ∈ delObj buf ap.objQueue, o.id ≠ getIntValFromJson buf ["id"]

-- An /obj/add that is not refused brings an id that the queue does not hold.
def Fresh (ap : AiotcParams) : Op → Prop
  | .request .objAdd buf malloc =>
    Complete buf → malloc.Ok → ap.objQueue.length < ap.configArgs.slaveObjMax →
      getIntValFromJson buf ["id"] ∉ objIds ap
  | _ => True

theorem delObj_sublist (buf : Text) (q : List ObjParam) : (delObj buf q).Sublist q :=
  List.eraseP_sublist

theorem not_mem_delObj {buf : Text} {q : List ObjParam} (h : (q.map ObjParam.id).Nodup) :
    ∀ o ∈ delObj buf q, o.id ≠ getIntValFromJson buf ["id"] := by
  intro o ho
  simpa [conditionByObjId] using (Queue.mem_delFromQueue (pairwise_conditionByObjId h _) ho).right

theorem distinct_iff : Distinct ap ↔ (objIds ap).Nodup :=
  ⟨Distinct.nodup, fun h => ⟨h, fun _ => not_mem_delObj h⟩⟩

theorem Step.distinct {op : Op} (h : Distinct ap) (e : Step ap op ap') :
    Distinct ap' ↔ Fresh ap op := by
  rw [distinct_iff]
  cases e.effect
  case add buf malloc ho hc hm hl hi =>
    subst ho
    rw [hi, List.nodup_append]
    simp only [Fresh, h.nodup, hc, hm, hl, true_and, forall_const]
    grind
  case del buf malloc ho hd =>
    subst ho
    have hn := h.nodup.sublist ((delObj_sublist buf ap.objQueue).map ObjParam.id)
    rw [objIds, hd]
    exact ⟨fun _ => trivial, fun _ => hn⟩
  case same hi hn =>
    rw [hi]
    refine ⟨fun _ => ?_, fun _ => h.nodup⟩
    cases op
    case restart => trivial
    case request url buf malloc =>
      cases url <;> try trivial
      exact fun hc hm hl => absurd ⟨hc, hm, hl⟩ (hn buf malloc rfl)

-- The ids stay distinct in exactly those runs in which no object is added that is there already.
theorem objIds_distinct_iff {cfg : ConfigParams} {tr : List (AiotcParams × Op)}
    (r : Run Step { configArgs := cfg } tr ap) :
    Run.Always Distinct tr ap ↔ Run.Meets Fresh tr := by
  refine r.always_iff_meets (fun _ _ _ h hf e => (e.distinct h).mpr hf) (fun _ h => h) ?_ ?_
  · exact fun _ _ _ h e hd => (e.distinct h).mp hd
  · exact distinct_iff.mpr (by simp [objIds])

section

-- The body by which a camera is added.
def camera (id : Int) : Text :=
  some (.object [("id", .number id), ("name", .string "gate"), ("type", .string "camera"),
    ("data", .object [("subtype", .string "rtsp")])])

def cfg : ConfigParams where
  masterEnable := 0
  masterObjMax := 100
  slaveObjMax := 100
  msgKeyStart := 1000
  msgKeyMax := 100

theorem objIds_distinct_iff_witness :
    Run.Always Distinct
      (Run.trace exec [.request .objAdd (camera 5) {}, .restart, .request .objAdd (camera 6) {}]
        { configArgs := cfg })
      ([Op.request .objAdd (camera 5) {}, .restart, .request .objAdd (camera 6) {}].foldl
        (fun ap op => exec op ap) { configArgs := cfg }) := by
  apply (objIds_distinct_iff (Run.of_trace exec _ _)).mpr
  simp only [Run.trace, Run.meets_cons, Run.meets_nil, and_true]
  exact ⟨fun _ _ _ => by decide, trivial, fun _ _ _ => by decide⟩

-- The rest process of a slave starts again, the master polls and initialises the slave, and sends
-- the object again that is still there. Of the two the slave now holds one survives its deletion.
theorem objIds_not_distinct :
    ¬∀ (cfg : ConfigParams) (tr : List (AiotcParams × Op)) (ap : AiotcParams),
      Run Step { configArgs := cfg } tr ap → Distinct ap := by
  intro h
  have hd := h cfg _ _ <| Run.of_trace exec [.request .objAdd (camera 5) {}, .restart,
    .request .systemSlave none {}, .request .systemInit (some (.object [])) {},
    .request .objAdd (camera 5) {}] _
  exact absurd hd.nodup (by decide)

end

end Slave
