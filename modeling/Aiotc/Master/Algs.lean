import Aiotc.Master.Documents
import Aiotc.Master.Restore
import Aiotc.Master.Settings

-- The algorithms of the objects of a master.

open Queue

namespace Master

-- What a document lists in original.task.alg.
def docAlgs (doc : CJson) : List CJson :=
  match Bson.get ["original", "task", "alg"] doc with
  | some (.array child) => child
  | _                   => []

-- A document with an id, of which the updates of original.task.alg succeed.
structure AlgDoc (doc : CJson) : Prop where
  id    : (docId doc).isSome
  plain : Bson.Plain ["original", "task", "alg"] doc
  array : ∀ j, Bson.get ["original", "task", "alg"] doc = some j → ∃ child, j = .array child

-- A master and the requests it got: the object, the algorithm, and whether it is to be started. The
-- last one is the first of the list.
structure Algs where
  master : State
  log : List (Int × CStr × Bool) := []

namespace Algs

def mobjQueue (s : Algs) : List ObjParam :=
  s.master.ap.masterArgs.mobjQueue

def docs (s : Algs) : Collection :=
  s.master.db.obj

def objAt (id : Int) (s : Algs) : Option ObjParam :=
  searchFromQueue (conditionByObjId id) s.mobjQueue

def docAt (id : Int) (s : Algs) : Option CJson :=
  searchFromQueue (Bson.selects ["original", "id"] (.int id)) s.docs

def names (o : ObjParam) : List CStr :=
  o.task.algQueue.map AlgParams.name

inductive Label
  | start (buf : Text)
  | stop (buf : Text)

def Label.buf : Label → Text
  | start buf => buf
  | stop buf  => buf

-- The object and the algorithm that a request is about.
def pair (buf : Text) : Option (Int × CStr) := do
  let algName ← getStrValFromJson buf ["alg"]
  guard (0 ≤ getIntValFromJson buf ["id"])
  return (getIntValFromJson buf ["id"], algName)

-- All memory and database operations succeed.
def exec : Label → Algs → Option Algs
  | .start buf, s => do
    let (m, _) ← masterRequestTaskStart buf true s.master
    return { master := m, log := ((pair buf).map fun x => (x.1, x.2, true)).toList ++ s.log }
  | .stop buf, s  => do
    let (m, _) ← masterRequestTaskStop buf s.master
    return { master := m, log := ((pair buf).map fun x => (x.1, x.2, false)).toList ++ s.log }

-- The names are no longer than `AlgParams` can hold, and there is room for the algorithm.
def Fits (s : Algs) : Label → Prop
  | .start buf => ∀ id alg, pair buf = some (id, alg) → alg.length < 32 ∧
    ∀ o, s.objAt id = some o → o.task.algQueue.length < 100
  | .stop buf  => ∀ id alg, pair buf = some (id, alg) → alg.length < 32

structure Step (s : Algs) (l : Label) (s' : Algs) : Prop where
  fits : Fits s l
  exec : exec l s = some s'

-- Objects without algorithms, which the database has.
structure Init (m : State) : Prop where
  algs : ∀ o ∈ m.ap.masterArgs.mobjQueue, o.task.algQueue = []
  docs : ∀ doc ∈ m.db.obj, AlgDoc doc
  obj  : ∀ o ∈ m.ap.masterArgs.mobjQueue, ∃ doc ∈ m.db.obj, docId doc = some o.id

def lastStart (log : List (Int × CStr × Bool)) (id : Int) (alg : CStr) : Bool :=
  ((log.find? fun x => x.1 = id ∧ x.2.1 = alg).map (·.2.2)).getD false

-- An object has an algorithm, once, if the last request for the two was to start it.
def Exact (s : Algs) : Prop :=
  ∀ id o alg, s.objAt id = some o → alg.length < 32 →
    (names o).count alg = if lastStart s.log id alg then 1 else 0

-- A request leaves all other objects alone.
def Others (s : Algs) (l : Label) : Prop :=
  ∀ s', Step s l s' → ∀ id, id ≠ getIntValFromJson l.buf ["id"] → s'.objAt id = s.objAt id

-- An algorithm that some document lists is started only for an object that has it.
def Listed (s : Algs) : Label → Prop
  | .start buf => ∀ id alg o, pair buf = some (id, alg) → s.objAt id = some o →
    dbExsit ["original", "task", "alg"] (.str alg) s.docs → alg ∈ names o
  | .stop _    => True

end Algs

section

variable {doc doc' : CJson} {cmd : Bson.Cmd} {val : DbVal} {id n : Int} {alg : CStr}
  {docs : Collection}

theorem AlgDoc.selects (h : AlgDoc doc) (val : DbVal) :
    Bson.selects ["original", "task", "alg"] val doc = (docAlgs doc).any val.eq := by
  rw [Bson.selects, Bson.fields_eq h.plain, docAlgs]
  cases hg : Bson.get ["original", "task", "alg"] doc
  case none   => rfl
  case some j =>
    obtain ⟨child, rfl⟩ := h.array j hg
    simp

theorem selects_of_docId (h : docId doc = some n) :
    Bson.selects ["original", "id"] (.int id) doc = decide (n = id) := by
  simp only [docId, Bson.selects] at h ⊢
  split at h <;> cases h
  case h_1 hf => simp [hf, DbVal.eq, eq_comm]

-- What an update of the algorithms makes of a document.
def updateAlgs (cmd : Bson.Cmd) (val : DbVal) (doc : CJson) : CJson :=
  Bson.updateDoc cmd val ["original", "task", "alg"] doc

theorem updateAlgs_id (doc : CJson) :
    Bson.fields ["original", "id"] (updateAlgs cmd val doc) =
      Bson.fields ["original", "id"] doc :=
  Bson.fields_updateDoc (by decide) doc

theorem updateAlgs_selects (id : Int) (doc : CJson) :
    Bson.selects ["original", "id"] (.int id) (updateAlgs cmd val doc) =
      Bson.selects ["original", "id"] (.int id) doc :=
  Bson.selects_updateDoc (by decide) _ doc

theorem AlgDoc.of_update (h : AlgDoc doc) {child : List CJson}
    (hu : Bson.update cmd val ["original", "task", "alg"] (some doc) = some doc')
    (ha : cmd.apply val (Bson.get ["original", "task", "alg"] doc) = some (.array child)) :
    AlgDoc doc' ∧ docAlgs doc' = child := by
  have hg : Bson.get ["original", "task", "alg"] doc' = some (.array child) :=
    (Bson.update_get hu).trans ha
  refine ⟨⟨?_, ?_, ?_⟩, by simp [docAlgs, hg]⟩
  case refine_1 =>
    have he : Bson.fields ["original", "id"] (updateAlgs cmd val doc) = _ := updateAlgs_id doc
    rw [updateAlgs, Bson.updateDoc, hu, Option.getD_some] at he
    simpa only [docId, he] using h.id
  case refine_2 =>
    refine Bson.update_plain (fun d hd => ?_) hu
    cases hd
    exact h.plain
  case refine_3 =>
    intro j hj
    cases hg.symm.trans hj
    exact ⟨child, rfl⟩

theorem AlgDoc.isSome_iff (h : AlgDoc doc) :
    (Bson.update cmd val ["original", "task", "alg"] (some doc)).isSome ↔
      (cmd.apply val (Bson.get ["original", "task", "alg"] doc)).isSome := by
  apply Bson.update_isSome_iff
  intro d hd
  cases hd
  exact h.plain

theorem AlgDoc.push (h : AlgDoc doc) (val : DbVal) :
    AlgDoc (updateAlgs .push val doc) ∧
      docAlgs (updateAlgs .push val doc) = docAlgs doc ++ [val.toJson] := by
  have ha : Bson.Cmd.push.apply val (Bson.get ["original", "task", "alg"] doc) =
      some (.array (docAlgs doc ++ [val.toJson])) := by
    rw [docAlgs]
    cases hg : Bson.get ["original", "task", "alg"] doc
    case none   => rfl
    case some j =>
      obtain ⟨child, rfl⟩ := h.array j hg
      rfl
  obtain ⟨doc', hu⟩ := Option.isSome_iff_exists.mp (h.isSome_iff.mpr (Option.isSome_of_mem ha))
  rw [updateAlgs, Bson.updateDoc, hu, Option.getD_some]
  exact h.of_update hu ha

theorem AlgDoc.pull (h : AlgDoc doc) (val : DbVal) :
    AlgDoc (updateAlgs .pull val doc) ∧
      docAlgs (updateAlgs .pull val doc) = (docAlgs doc).filter fun j => !val.eq j := by
  cases hg : Bson.get ["original", "task", "alg"] doc
  case none =>
    have hu : Bson.update .pull val ["original", "task", "alg"] (some doc) = none :=
      Option.not_isSome_iff_eq_none.mp fun hs => by
        simpa [hg, Bson.Cmd.apply] using h.isSome_iff.mp hs
    rw [updateAlgs, Bson.updateDoc, hu, Option.getD_none]
    exact ⟨h, by simp [docAlgs, hg]⟩
  case some j =>
    obtain ⟨child, rfl⟩ := h.array j hg
    have ha : Bson.Cmd.pull.apply val (Bson.get ["original", "task", "alg"] doc) =
        some (.array (child.filter fun j => !val.eq j)) := by
      rw [hg]
      rfl
    obtain ⟨doc', hu⟩ := Option.isSome_iff_exists.mp (h.isSome_iff.mpr (Option.isSome_of_mem ha))
    rw [updateAlgs, Bson.updateDoc, hu, Option.getD_some]
    simpa [docAlgs, hg] using h.of_update hu ha

end

namespace Algs

variable {s s' : Algs} {buf : Text} {id : Int} {alg : CStr} {o : ObjParam}

-- What a request does to its object, and to the document of this object.
structure Changed (f : ObjParam → ObjParam) (cmd : Bson.Cmd) (id : Int) (alg : CStr)
    (s s' : Algs) : Prop where
  mobjQueue : s'.mobjQueue = modifyFound (conditionByObjId id) f s.mobjQueue
  docs      : s'.docs = modifyFound (Bson.selects ["original", "id"] (.int id))
    (updateAlgs cmd (.str alg)) s.docs

theorem requestObj_eq {url : Url} {f : ObjParam → ObjParam} {m m' : State} {posts : List Post}
    (e : requestObj url buf f m = some (m', posts)) :
    m' = updateMaster (fun mp => { mp with
      mobjQueue := modifyFound
        (conditionByObjId (getIntValFromJson buf ["id"])) f mp.mobjQueue }) m := by
  simp only [requestObj] at e
  split at e
  case h_1 hn =>
    cases e
    rcases modifyFound_cases (conditionByObjId (getIntValFromJson buf ["id"])) f
      m.ap.masterArgs.mobjQueue with ⟨_, _, _, -, hs, -⟩ | ⟨-, -, hm⟩
    · cases hn.symm.trans hs
    · simp [updateMaster, hm]
  case h_2 =>
    obtain ⟨_, -, e⟩ := Option.bind_eq_some_iff.mp e
    cases e
    rfl

theorem pair_some (h : pair buf = some (id, alg)) :
    getStrValFromJson buf ["alg"] = some alg ∧ getIntValFromJson buf ["id"] = id ∧ ¬id < 0 := by
  simp only [pair, bind, pure, Option.bind_eq_some_iff, Option.guard_eq_some', Option.some.injEq,
    Prod.mk.injEq] at h
  obtain ⟨_, ha, _, hn, rfl, rfl⟩ := h
  exact ⟨ha, rfl, by omega⟩

theorem pair_none (h : pair buf = none) : getStrValFromJson buf ["alg"] = none ∨
    getIntValFromJson buf ["id"] < 0 := by
  cases ha : getStrValFromJson buf ["alg"]
  case none => exact .inl rfl
  case some =>
    right
    simpa [pair, ha, guard] using h

theorem start_none (hp : pair buf = none) (e : exec (.start buf) s = some s') : s' = s := by
  have ⟨⟨m, posts⟩, hm, e⟩ := Option.bind_eq_some_iff.mp e
  cases e
  simp only [masterRequestTaskStart] at hm
  split at hm
  case h_1 =>
    cases hm
    simp [hp]
  case h_2 ha =>
    have hn := (pair_none hp).resolve_left (by simp [ha])
    rw [if_pos (.inl hn)] at hm
    cases hm
    simp [hp]

theorem start_some (hp : pair buf = some (id, alg)) (e : exec (.start buf) s = some s') :
    s'.log = (id, alg, true) :: s.log ∧
    if dbExsit ["original", "task", "alg"] (.str alg) s.docs then
      s'.master = s.master
    else
      Changed (addAlg alg true) .push id alg s s' := by
  have ⟨⟨m, posts⟩, hm, e⟩ := Option.bind_eq_some_iff.mp e
  cases e
  obtain ⟨ha, rfl, hn⟩ := pair_some hp
  simp only [masterRequestTaskStart, ha, hn, false_or] at hm
  refine ⟨by simp [hp], ?_⟩
  split at hm
  case isTrue hd =>
    cases hm
    rw [docs, if_pos hd]
  case isFalse hd =>
    have ⟨⟨m', posts'⟩, hr, hm⟩ := Option.bind_eq_some_iff.mp hm
    cases hm
    cases requestObj_eq hr
    rw [docs, if_neg hd]
    exact ⟨rfl, Bson.dbUpdate_eq ..⟩

theorem stop_none (hp : pair buf = none) (e : exec (.stop buf) s = some s') : s' = s := by
  have ⟨⟨m, posts⟩, hm, e⟩ := Option.bind_eq_some_iff.mp e
  cases e
  simp only [masterRequestTaskStop] at hm
  split at hm
  case h_1 =>
    cases hm
    simp [hp]
  case h_2 ha =>
    rw [if_pos ((pair_none hp).resolve_left (by simp [ha]))] at hm
    cases hm
    simp [hp]

theorem stop_some (hp : pair buf = some (id, alg)) (e : exec (.stop buf) s = some s') :
    s'.log = (id, alg, false) :: s.log ∧ Changed (delAlg alg) .pull id alg s s' := by
  have ⟨⟨m, posts⟩, hm, e⟩ := Option.bind_eq_some_iff.mp e
  cases e
  obtain ⟨ha, rfl, hn⟩ := pair_some hp
  simp only [masterRequestTaskStop, ha, if_neg hn] at hm
  have ⟨⟨m', posts'⟩, hr, hm⟩ := Option.bind_eq_some_iff.mp hm
  cases hm
  cases requestObj_eq hr
  exact ⟨by simp [hp], rfl, Bson.dbUpdate_eq ..⟩

-- The object and the document of an id after the request.

theorem Changed.objAt {f : ObjParam → ObjParam} {cmd : Bson.Cmd} (h : Changed f cmd id alg s s')
    (hf : ∀ o, (f o).id = o.id) (i : Int) :
    s'.objAt i = if i = id then (s.objAt i).map f else s.objAt i := by
  simp only [Algs.objAt, h.mobjQueue]
  split
  case isTrue hi =>
    subst hi
    exact searchFromQueue_modifyFound_self _ f _ fun o => by simp [conditionByObjId, hf]
  case isFalse hi =>
    apply searchFromQueue_modifyFound _ _ f _ (fun o => by simp [conditionByObjId, hf])
    intro o _ ho
    simp only [conditionByObjId, decide_eq_true_eq] at ho
    simpa [conditionByObjId, ho] using Ne.symm hi

theorem Changed.docAt {f : ObjParam → ObjParam} {cmd : Bson.Cmd} (h : Changed f cmd id alg s s')
    (hd : ∀ doc ∈ s.docs, AlgDoc doc) (i : Int) :
    s'.docAt i = if i = id then (s.docAt i).map (updateAlgs cmd (.str alg)) else s.docAt i := by
  simp only [Algs.docAt, h.docs]
  split
  case isTrue hi =>
    subst hi
    exact searchFromQueue_modifyFound_self _ _ _ fun doc hd =>
      (updateAlgs_selects i doc).trans hd
  case isFalse hi =>
    apply searchFromQueue_modifyFound _ _ _ _ (fun doc => updateAlgs_selects i doc)
    intro doc hm hs
    have ⟨n, hn⟩ := Option.isSome_iff_exists.mp (hd doc hm).id
    rw [selects_of_docId hn, decide_eq_true_eq] at hs
    simpa [selects_of_docId hn, hs] using Ne.symm hi

theorem names_addAlg (ha : alg.length < 32) (hl : o.task.algQueue.length < 100) :
    names (addAlg alg true o) = names o ++ [alg] := by
  have hr : (o.task.algQueue.length : Int) < 100 := by omega
  have hs : strncpy 32 alg = alg := List.take_of_length_le (by omega)
  simp [names, addAlg, putToShmQueue_of_room hr, hs]

theorem names_delAlg (ha : alg.length < 32) : names (delAlg alg o) = (names o).erase alg := by
  have hs : strncpy 32 alg = alg := List.take_of_length_le (by omega)
  simp only [names, delAlg, delFromQueue]
  induction o.task.algQueue
  case nil => rfl
  case cons a q hi =>
    have hc : conditionByAlgName alg a = decide (alg = a.name) := by rw [conditionByAlgName, hs]
    by_cases he : alg = a.name
    case pos =>
      rw [List.eraseP_cons_of_pos (hc.trans (decide_eq_true he)), List.map_cons, he,
        List.erase_cons_head]
    case neg =>
      rw [List.eraseP_cons_of_neg (by rw [hc]; simpa using he), List.map_cons, List.map_cons, hi,
        List.erase_cons_tail (by simpa using Ne.symm he)]

theorem lastStart_cons (log : List (Int × CStr × Bool)) (id i : Int) (alg a : CStr) (b : Bool) :
    lastStart ((id, alg, b) :: log) i a = if i = id ∧ a = alg then b else lastStart log i a := by
  simp only [lastStart, List.find?_cons]
  by_cases h : i = id ∧ a = alg
  case pos => simp [h]
  case neg =>
    have hd : decide (id = i ∧ alg = a) = false := by
      simpa using fun h₁ h₂ => h ⟨Eq.symm h₁, Eq.symm h₂⟩
    simp [h, hd]

-- The document of an object lists the algorithms that it has.
structure Inv (s : Algs) : Prop where
  exact : Exact s
  docs  : ∀ doc ∈ s.docs, AlgDoc doc
  obj   : ∀ id o, s.objAt id = some o → ∃ doc, s.docAt id = some doc ∧
    ∀ a ∈ names o, .string a ∈ docAlgs doc

theorem Init.inv {m : State} (h : Init m) : Inv { master := m } := by
  have hn : ∀ id o, Algs.objAt id { master := m } = some o → names o = [] ∧ o.id = id ∧
      ∃ doc ∈ m.db.obj, docId doc = some o.id := by
    intro id o ho
    have ⟨hm, hc⟩ := searchFromQueue_some ho
    exact ⟨by simp [names, h.algs o hm], by simpa [conditionByObjId] using hc, h.obj o hm⟩
  constructor
  case exact =>
    intro id o alg ho _
    simp [(hn id o ho).left, lastStart]
  case docs => exact h.docs
  case obj =>
    intro id o ho
    obtain ⟨hnil, rfl, doc, hd, hi⟩ := hn id o ho
    have hs : (Algs.docAt o.id { master := m }).isSome := by
      refine List.find?_isSome.mpr ⟨doc, hd, ?_⟩
      rw [selects_of_docId hi, decide_eq_true rfl]
    obtain ⟨doc', hd'⟩ := Option.isSome_iff_exists.mp hs
    exact ⟨doc', hd', by simp [hnil]⟩

-- An object that has an algorithm is found by `dbExsit`.
theorem Inv.dbExsit (h : Inv s) (ho : s.objAt id = some o) (ha : alg ∈ names o) :
    dbExsit ["original", "task", "alg"] (.str alg) s.docs := by
  have ⟨doc, hd, hl⟩ := h.obj id o ho
  have hm := (searchFromQueue_some hd).left
  refine List.any_eq_true.mpr ⟨doc, hm, ?_⟩
  rw [(h.docs doc hm).selects]
  exact List.any_eq_true.mpr ⟨_, hl alg ha, by simp [DbVal.eq]⟩

theorem Changed.docs_valid {f : ObjParam → ObjParam} {cmd : Bson.Cmd}
    (h : Changed f cmd id alg s s') (hd : ∀ doc ∈ s.docs, AlgDoc doc)
    (hu : ∀ doc, AlgDoc doc → AlgDoc (updateAlgs cmd (.str alg) doc)) :
    ∀ doc ∈ s'.docs, AlgDoc doc := by
  intro doc hm
  rw [h.docs] at hm
  rcases of_mem_modifyFound hm with hm | ⟨d, hm', rfl⟩
  · exact hd doc hm
  · exact hu d (hd d hm')

-- What is left to show of a request: how often its object has each algorithm, and that the document
-- lists those that it has.
theorem Changed.inv {f : ObjParam → ObjParam} {cmd : Bson.Cmd} {b : Bool}
    (hc : Changed f cmd id alg s s') (h : Inv s) (hlog : s'.log = (id, alg, b) :: s.log)
    (hf : ∀ o, (f o).id = o.id) (hd : ∀ doc, AlgDoc doc → AlgDoc (updateAlgs cmd (.str alg) doc))
    (hn : ∀ o, s.objAt id = some o → ∀ a, a.length < 32 →
      (names (f o)).count a = if a = alg then b.toNat else (names o).count a)
    (hl : ∀ o doc, s.objAt id = some o → AlgDoc doc → (∀ a ∈ names o, .string a ∈ docAlgs doc) →
      ∀ a ∈ names (f o), .string a ∈ docAlgs (updateAlgs cmd (.str alg) doc)) : Inv s' where
  docs := hc.docs_valid h.docs hd
  exact := by
    intro i o' a hi ha
    rw [hlog, lastStart_cons]
    rw [hc.objAt hf] at hi
    split at hi
    case isFalse hne => simpa [hne] using h.exact i o' a hi ha
    case isTrue heq =>
      subst heq
      obtain ⟨o, ho, rfl⟩ := Option.map_eq_some_iff.mp hi
      rw [hn o ho a ha]
      by_cases hc : a = alg
      case pos => cases b <;> simp [hc]
      case neg => simpa [hc] using h.exact i o a ho ha
  obj := by
    intro i o' hi
    rw [hc.docAt h.docs]
    rw [hc.objAt hf] at hi
    split at hi
    case isFalse hne => simpa [hne] using h.obj i o' hi
    case isTrue heq =>
      subst heq
      obtain ⟨o, ho, rfl⟩ := Option.map_eq_some_iff.mp hi
      have ⟨doc, hdoc, hlist⟩ := h.obj i o ho
      have hm := (searchFromQueue_some hdoc).left
      exact ⟨updateAlgs cmd (.str alg) doc, by simp [hdoc], hl o doc ho (h.docs doc hm) hlist⟩

theorem start_inv (h : Inv s) (hf : Fits s (.start buf)) (hl : Listed s (.start buf))
    (e : exec (.start buf) s = some s') : Inv s' := by
  cases hp : pair buf
  case none   => exact start_none hp e ▸ h
  case some x =>
    have ⟨id, alg⟩ := x
    have ⟨hlen, hroom⟩ := hf id alg hp
    have ⟨hlog, he⟩ := start_some hp e
    split at he
    case isTrue hd =>
      -- The request is ignored, so the object must have the algorithm.
      have ho : ∀ i, s'.objAt i = s.objAt i := fun i => by simp only [objAt, mobjQueue, he]
      have hdoc : ∀ i, s'.docAt i = s.docAt i := fun i => by simp only [docAt, docs, he]
      refine ⟨?_, by simpa only [docs, he] using h.docs, by simpa only [ho, hdoc] using h.obj⟩
      intro i o a hi ha
      rw [hlog, lastStart_cons]
      rw [ho] at hi
      split
      case isFalse => exact h.exact i o a hi ha
      case isTrue hc =>
        obtain ⟨rfl, rfl⟩ := hc
        have hpos := List.count_pos_iff.mpr (hl i a o hp hi hd)
        have hx := h.exact i o a hi ha
        split at hx
        · simpa using hx
        · omega
    case isFalse hd =>
      refine he.inv h hlog (fun _ => rfl) (fun doc hd => (hd.push _).left) (fun o ho a _ => ?_)
        fun o doc ho hdoc hlist a ha => ?_
      case refine_1 =>
        rw [names_addAlg hlen (hroom o ho), List.count_append]
        by_cases hc : a = alg
        case pos =>
          have hn : alg ∉ names o := fun hm => hd (h.dbExsit ho hm)
          simp [hc, List.count_eq_zero_of_not_mem hn]
        case neg => simp [hc, Ne.symm hc]
      case refine_2 =>
        rw [names_addAlg hlen (hroom o ho), List.mem_append] at ha
        rw [(hdoc.push (.str alg)).right, List.mem_append]
        exact ha.imp (hlist a) fun ha => by simp [List.mem_singleton.mp ha, DbVal.toJson]

theorem stop_inv (h : Inv s) (hf : Fits s (.stop buf)) (e : exec (.stop buf) s = some s') :
    Inv s' := by
  cases hp : pair buf
  case none   => exact stop_none hp e ▸ h
  case some x =>
    have ⟨id, alg⟩ := x
    have hlen := hf id alg hp
    have ⟨hlog, he⟩ := stop_some hp e
    -- The algorithm was there once.
    have hle : ∀ o, s.objAt id = some o → (names o).count alg ≤ 1 := by
      intro o ho
      have hx := h.exact id o alg ho hlen
      split at hx <;> omega
    refine he.inv h hlog (fun _ => rfl) (fun doc hd => (hd.pull _).left) (fun o ho a _ => ?_)
      fun o doc ho hdoc hlist a ha => ?_
    case refine_1 =>
      rw [names_delAlg hlen]
      by_cases hc : a = alg
      case pos =>
        have hle := hle o ho
        rw [hc, List.count_erase_self, if_pos rfl, Bool.toNat_false]
        omega
      case neg => simp [hc]
    case refine_2 =>
      rw [names_delAlg hlen] at ha
      have hne : a ≠ alg := by
        rintro rfl
        have hle := hle o ho
        have hpos := List.count_pos_iff.mpr ha
        rw [List.count_erase_self] at hpos
        omega
      rw [(hdoc.pull (.str alg)).right, List.mem_filter]
      exact ⟨hlist a (List.mem_of_mem_erase ha), by simpa [DbVal.eq] using Ne.symm hne⟩

theorem Step.inv {l : Label} (h : Inv s) (hl : Listed s l) (e : Step s l s') : Inv s' := by
  cases l
  case start => exact start_inv h e.fits hl e.exec
  case stop  => exact stop_inv h e.fits e.exec

theorem others (s : Algs) (l : Label) : Others s l := by
  intro s' e i hi
  obtain ⟨-, e⟩ := e
  cases l
  case start buf =>
    cases hp : pair buf
    case none   => rw [start_none hp e]
    case some x =>
      have ⟨id, alg⟩ := x
      obtain ⟨-, rfl, -⟩ := pair_some hp
      have he := (start_some hp e).right
      split at he
      case isTrue  => simp only [objAt, mobjQueue, he]
      case isFalse => exact (he.objAt (fun _ => rfl) i).trans (if_neg hi)
  case stop buf =>
    cases hp : pair buf
    case none   => rw [stop_none hp e]
    case some x =>
      have ⟨id, alg⟩ := x
      obtain ⟨-, rfl, -⟩ := pair_some hp
      exact ((stop_some hp e).right.objAt (fun _ => rfl) i).trans (if_neg hi)

-- When a start is ignored, the object must have had the algorithm.
theorem Step.listed {l : Label} (e : Step s l s') (hx : Exact s') : Listed s l := by
  have ⟨hf, e⟩ := e
  cases l
  case stop  => trivial
  case start buf =>
    intro id alg o hp ho hd
    have ⟨hlog, he⟩ := start_some hp e
    rw [if_pos hd] at he
    have ho' : s'.objAt id = some o := by simpa only [objAt, mobjQueue, he] using ho
    have hc := hx id o alg ho' (hf id alg hp).left
    simp only [hlog, lastStart_cons, and_self, if_true] at hc
    exact List.count_pos_iff.mp (by omega)

-- The objects have the algorithms that they were asked to have exactly if no start is ignored
-- because another document lists the algorithm.
theorem exact_iff_listed {m : State} (h : Init m) {tr : List (Algs × Label)}
    (r : Run Step { master := m } tr s) :
    Run.Always Exact tr s ∧ Run.Meets Others tr ↔ Run.Meets Listed tr := by
  have hi := r.always_iff_meets (fun _ _ _ h hl e => e.inv h hl) (fun _ h => h.exact)
    (fun _ _ _ _ e hx => e.listed hx) h.inv
  exact ⟨fun ha => hi.mp ha.left, fun hm => ⟨hi.mpr hm, fun x _ => others x.1 x.2⟩⟩

section

-- Two cameras.
def cameras : State :=
  [Registration.objAdd (Slave.camera 5), .objAdd (Slave.camera 6)].foldl (fun s i => i.exec s)
    { ap := { configArgs := Slave.cfg } }

def request (id : Int) (alg : CStr) : Text :=
  some (.object [("id", .number id), ("alg", .string alg)])

theorem algDoc_camera (id : Int) : ∀ j, Slave.camera id = some j → AlgDoc (document j) := by
  rintro _ ⟨⟩
  constructor
  case id => rfl
  case plain =>
    rintro _ ⟨⟩ _ ⟨⟩
  case array =>
    rintro _ ⟨⟩

theorem init_cameras : Init cameras where
  algs := List.forall_mem_cons.mpr ⟨rfl, List.forall_mem_singleton.mpr rfl⟩
  docs := List.forall_mem_cons.mpr
    ⟨algDoc_camera 5 _ rfl, List.forall_mem_singleton.mpr (algDoc_camera 6 _ rfl)⟩
  obj := List.forall_mem_cons.mpr ⟨⟨_, List.mem_cons_self, rfl⟩,
    List.forall_mem_singleton.mpr ⟨_, List.mem_cons_of_mem _ List.mem_cons_self, rfl⟩⟩

-- Each camera is asked for an algorithm, the first one twice. It moves to the second camera.
def moves : List Label := [
  .start (request 5 "face"), .start (request 6 "person"), .start (request 5 "face"),
  .stop (request 5 "face"), .start (request 6 "face")]

theorem exact_iff_listed_witness :
    ∃ s, Run Step { master := cameras } (Run.partialTrace exec moves { master := cameras }) s ∧
      Exact s ∧ (s.objAt 5).map names = some [] ∧
      (s.objAt 6).map names = some [CStr.ofString "person", CStr.ofString "face"] := by
  have r : Run Step { master := cameras } (Run.partialTrace exec moves { master := cameras }) _ :=
    .step ⟨?_, rfl⟩ <| .step ⟨?_, rfl⟩ <| .step ⟨?_, rfl⟩ <| .step ⟨?_, rfl⟩ <| .single ⟨?_, rfl⟩
  refine ⟨_, r, ((exact_iff_listed init_cameras r).mpr ?_).left.last, rfl, rfl⟩
  · iterate 2 refine Run.meets_cons.mpr ⟨by rintro _ _ _ ⟨⟩ - hd; exact absurd hd (by decide), ?_⟩
    refine Run.meets_cons.mpr ⟨by rintro _ _ _ ⟨⟩ ⟨⟩ -; decide, ?_⟩
    refine Run.meets_cons.mpr ⟨trivial, ?_⟩
    refine Run.meets_cons.mpr ⟨by rintro _ _ _ ⟨⟩ - hd; exact absurd hd (by decide), Run.meets_nil⟩
  all_goals
    rintro _ _ ⟨⟩
    first
      | refine ⟨by decide, ?_⟩
        rintro _ ⟨⟩
        decide
      | decide

-- The second camera does not get the algorithm that the first one has.
theorem not_exact :
    ¬∀ (m : State) (tr : List (Algs × Label)) (s : Algs), Init m →
      Run Step { master := m } tr s → Exact s := by
  intro h
  have hs := h cameras _ _ init_cameras <|
    .step (i := .start (request 5 "face")) ⟨?_, rfl⟩ <|
    .single (i := .start (request 6 "face")) ⟨?_, rfl⟩
  · exact absurd (hs 6 _ "face" rfl (by decide)) (by decide)
  · rintro _ _ ⟨⟩
    refine ⟨by decide, ?_⟩
    rintro _ ⟨⟩
    decide
  · rintro _ _ ⟨⟩
    refine ⟨by decide, ?_⟩
    rintro _ ⟨⟩
    decide

end

end Algs

end Master
