import Aiotc.Library.Run
import Aiotc.Master.Poll
import Aiotc.Master.Rest
import Aiotc.Slave.ObjIds

-- The slaves and objects of a master, and the documents from which they are restored.

open Queue

-- In two lists with the same keys the first element of a key is at the same place.
theorem map_eraseP_eq {α β γ : Type*} {f : α → γ} {g : β → γ} {p : α → Bool} {q : β → Bool}
    {r : γ → Bool} {xs : List α} {ys : List β} (h : xs.map f = ys.map g)
    (hp : ∀ x ∈ xs, p x = r (f x)) (hq : ∀ y ∈ ys, q y = r (g y)) :
    (xs.eraseP p).map f = (ys.eraseP q).map g := by
  induction xs generalizing ys <;> cases ys <;> try simp at h
  case nil.nil => rfl
  case cons.cons x xs hi y ys =>
    have ⟨hf, h⟩ := h
    have hx := hp x List.mem_cons_self
    have hy := hq y List.mem_cons_self
    rw [← hf] at hy
    have hi := hi h (fun x hx => hp x (List.mem_cons_of_mem _ hx))
      fun y hy => hq y (List.mem_cons_of_mem _ hy)
    cases hr : r (f x) <;> simp_all

namespace Master

-- The requests that add and delete slaves and objects.
inductive Registration
  | slaveAdd (buf : Text) (node : Addr)
  | slaveDel (buf : Text)
  | objAdd (buf : Text)
  | objDel (buf : Text)

namespace Registration

-- All memory and database operations succeed.
def exec : Registration → State → State
  | slaveAdd buf node => masterRequestSlaveAdd buf true (some node)
  | slaveDel buf      => masterRequestSlaveDel buf
  | objAdd buf        => masterRequestObjAdd buf {}
  | objDel buf        => masterRequestObjDel buf

def Step (s : State) (i : Registration) (s' : State) : Prop :=
  exec i s = s'

end Registration

def ips (ap : AiotcParams) : List CStr :=
  ap.masterArgs.slaveQueue.map (·.2.ip)

def ids (ap : AiotcParams) : List Int :=
  ap.masterArgs.mobjQueue.map ObjParam.id

-- The ip and the id that the database sees in a document.
def docIp (doc : CJson) : Option CStr :=
  match Bson.fields ["original", "slaveIp"] doc with
  | [.string s] => some s
  | _           => none

def docId (doc : CJson) : Option Int :=
  match Bson.fields ["original", "id"] doc with
  | [.number n] => some n
  | _           => none

-- The document that `dbWrite` makes of a text.
def document (j : CJson) : CJson :=
  .object [("original", j)]

-- After a start of the master from the documents in any order the slaves and the objects are
-- those that it had.
structure Restorable (s : State) : Prop where
  ips : ∀ node db, db.slave.Perm s.db.slave → db.obj.Perm s.db.obj →
    (ips (initMasterFromDB node db { configArgs := s.ap.configArgs })).Perm (ips s.ap)
  ids : ∀ node db, db.slave.Perm s.db.slave → db.obj.Perm s.db.obj →
    (ids (initMasterFromDB node db { configArgs := s.ap.configArgs })).Perm (ids s.ap)

structure Consistent (s : State) : Prop where
  slave      : ((ips s.ap).map some).Perm (s.db.slave.map docIp)
  obj        : ((ids s.ap).map some).Perm (s.db.obj.map docId)
  restorable : Restorable s

-- An /system/slave/add that names an ip is one that `addSlave` queues under this ip, which no
-- other slave has, and whose text the database reads as `getStrValFromJson` does. An /obj/add with
-- an id is one that `addObj` queues, and again the id is new and read by the database. No object
-- of the master is deleted.
def Registered (s : State) : Registration → Prop
  | .slaveAdd buf _ => ∀ j slaveIp, buf = some j →
    getStrValFromJson buf ["slaveIp"] = some slaveIp →
    (newSlave buf).isSome ∧ slaveIp.length < 48 ∧ docIp (document j) = some slaveIp ∧
    s.ap.masterArgs.slaveQueue.length < 1000 ∧ slaveIp ∉ ips s.ap
  | .slaveDel _     => True
  | .objAdd buf     => ∀ j, buf = some j → 0 ≤ getIntValFromJson buf ["id"] →
    Complete buf ∧ docId (document j) = some (getIntValFromJson buf ["id"]) ∧
    s.ap.masterArgs.mobjQueue.length < s.ap.configArgs.masterObjMax ∧
    getIntValFromJson buf ["id"] ∉ ids s.ap
  | .objDel buf     => getIntValFromJson buf ["id"] ∉ ids s.ap

-- The documents from which `slaveInitCB` and `objInitCB` make a slave and an object.
structure SlaveDoc (doc : CJson) : Prop where
  exists_slave : ∃ j p, doc = document j ∧ newSlave (some j) = some p ∧ docIp doc = some p.ip

structure ObjDoc (doc : CJson) : Prop where
  exists_obj : ∃ j, doc = document j ∧ Complete (some j) ∧
    docId doc = some (getIntValFromJson (some j) ["id"])

structure Agree (s : State) : Prop where
  ips    : s.db.slave.map docIp = (ips s.ap).map some
  ids    : s.db.obj.map docId = (ids s.ap).map some
  slaves : ∀ doc ∈ s.db.slave, SlaveDoc doc
  objs   : ∀ doc ∈ s.db.obj, ObjDoc doc
  room   : s.ap.masterArgs.slaveQueue.length ≤ 1000
  room'  : s.ap.masterArgs.mobjQueue = [] ∨
    s.ap.masterArgs.mobjQueue.length ≤ s.ap.configArgs.masterObjMax

section

variable {doc : CJson} {docs : Collection}

theorem selects_docIp {slaveIp : CStr} (h : SlaveDoc doc) :
    Bson.selects ["original", "slaveIp"] (.str slaveIp) doc = (docIp doc = some slaveIp) := by
  have ⟨_, p, _, _, hd⟩ := h.exists_slave
  simp only [docIp, Bson.selects] at hd ⊢
  split at hd <;> cases hd
  case h_1 hf => simp [hf, DbVal.eq, eq_comm]

theorem selects_docId {id : Int} (h : ObjDoc doc) :
    Bson.selects ["original", "id"] (.int id) doc = (docId doc = some id) := by
  have ⟨_, _, _, hd⟩ := h.exists_obj
  simp only [docId, Bson.selects] at hd ⊢
  split at hd <;> cases hd
  case h_1 hf => simp [hf, DbVal.eq, eq_comm]

theorem checkDel_of_not_mem {names : List CStr} {val : DbVal} {β : Type*} {key : CJson → Option β}
    {b : β} {bs : List β} (hs : ∀ doc ∈ docs, Bson.selects names val doc = (key doc = some b))
    (hk : docs.map key = bs.map some) (hb : b ∉ bs) : checkDel names val docs = docs := by
  apply List.eraseP_of_forall_not
  intro doc hd
  rw [hs doc hd]
  intro h
  have hm := List.mem_map_of_mem (f := key) hd
  rw [hk, h] at hm
  simp [hb] at hm

end

theorem newSlave_ip {buf : Text} {p : SlaveParam} (h : newSlave buf = some p) :
    ∃ slaveIp, getStrValFromJson buf ["slaveIp"] = some slaveIp ∧ p.ip = strncpy 48 slaveIp := by
  simp only [newSlave, bind, Option.bind_eq_some_iff, pure, Option.some.injEq] at h
  obtain ⟨slaveIp, hs, _, -, _, -, rfl⟩ := h
  exact ⟨slaveIp, hs, rfl⟩

theorem addSlave_of_room {buf : Text} {p : SlaveParam} {node : Addr} {mp : MasterParams}
    (h : newSlave buf = some p) (hr : mp.slaveQueue.length < 1000) :
    addSlave buf true (some node) mp = { mp with slaveQueue := mp.slaveQueue ++ [(node, p)] } := by
  have hr : (mp.slaveQueue.length : Int) < 1000 := by omega
  simp only [addSlave, h, if_true, putToShmQueue_of_room hr]

variable {s s' : State}

theorem slaveAdd_agree {buf : Text} {node : Addr} (h : Agree s)
    (hr : Registered s (.slaveAdd buf node)) :
    Agree (masterRequestSlaveAdd buf true (some node) s) := by
  simp only [masterRequestSlaveAdd]
  split
  case h_1 => exact h
  case h_2 slaveIp hs =>
    cases buf
    case none => simp [getStrValFromJson, getSubFromJson] at hs
    case some j =>
      obtain ⟨hn, hl, hd, hroom, hf⟩ := hr j slaveIp rfl hs
      obtain ⟨p, hp⟩ := Option.isSome_iff_exists.mp hn
      obtain ⟨_, hs', hip⟩ := newSlave_ip hp
      cases Option.some.inj (hs.symm.trans hs')
      have hip : p.ip = slaveIp := hip.trans (List.take_of_length_le (by omega))
      have hdel : checkDel ["original", "slaveIp"] (.str slaveIp) s.db.slave = s.db.slave :=
        checkDel_of_not_mem (fun doc hm => selects_docIp (h.slaves doc hm)) h.ips hf
      simp only [updateMaster, addSlave_of_room hp hroom, dbWrite, hdel]
      exact {
        ips    := by simp [Master.ips, h.ips, hip, ← hd]; rfl
        ids    := h.ids
        slaves := fun doc hm => by
          rcases List.mem_append.mp hm with hm | hm
          · exact h.slaves doc hm
          · rw [List.mem_singleton.mp hm]
            exact ⟨j, p, rfl, hp, hip ▸ hd⟩
        objs   := h.objs
        room   := by simp; omega
        room'  := h.room'
      }

theorem slaveDel_agree {buf : Text} (h : Agree s) : Agree (masterRequestSlaveDel buf s) := by
  simp only [masterRequestSlaveDel]
  split
  case h_1 => exact h
  case h_2 slaveIp hs =>
    simp only [updateMaster, delSlave, hs, dbDel, checkDel, delFromQueue]
    exact {
      ips    := by
        have hi := h.ips
        simp only [Master.ips, List.map_map] at hi ⊢
        refine map_eraseP_eq (r := (· = some slaveIp)) hi (fun doc hm => ?_) fun p _ => ?_
        · simp only [← selects_docIp (h.slaves doc hm), Bool.decide_eq_true]
        · simp [conditionBySlaveIp, eq_comm]
      ids    := h.ids
      slaves := fun doc hm => h.slaves doc (List.mem_of_mem_eraseP hm)
      objs   := h.objs
      room   := Nat.le_trans List.length_eraseP_le h.room
      room'  := h.room'
    }

theorem objAdd_agree {buf : Text} (h : Agree s) (hr : Registered s (.objAdd buf)) :
    Agree (masterRequestObjAdd buf {} s) := by
  simp only [masterRequestObjAdd]
  split
  case isTrue => exact h
  case isFalse hn =>
    cases buf
    case none => exact absurd (show getIntValFromJson none ["id"] < 0 by decide) hn
    case some j =>
      have ⟨hc, hd, hroom, hf⟩ := hr j rfl (by omega)
      have hdel : checkDel ["original", "id"] (.int (getIntValFromJson (some j) ["id"])) s.db.obj =
          s.db.obj :=
        checkDel_of_not_mem (fun doc hm => selects_docId (h.objs doc hm)) h.ids hf
      rcases addObj_cases (some j) {} s.ap.configArgs.masterObjMax s.ap
        s.ap.masterArgs.mobjQueue with ⟨-, -, -, o, ho, hq⟩ | ⟨hno, -⟩
      case inr => exact absurd ⟨hc, ⟨rfl, rfl, rfl, rfl, rfl⟩, hroom⟩ hno
      case inl =>
        simp only [addMobj, hq, dbWrite, hdel]
        exact {
          ips    := h.ips
          ids    := by simp [Master.ids, h.ids, ho.id, ← hd]; rfl
          slaves := h.slaves
          objs   := fun doc hm => by
            rcases List.mem_append.mp hm with hm | hm
            · exact h.objs doc hm
            · rw [List.mem_singleton.mp hm]
              exact ⟨j, rfl, hc, hd⟩
          room   := h.room
          room'  := .inr (by simp; omega)
        }

theorem objDel_agree {buf : Text} (h : Agree s) (hr : Registered s (.objDel buf)) :
    Agree (masterRequestObjDel buf s) := by
  have hd : delObj buf s.ap.masterArgs.mobjQueue = s.ap.masterArgs.mobjQueue := by
    refine List.eraseP_of_forall_not fun o ho hi => hr ?_
    simp only [conditionByObjId, decide_eq_true_eq] at hi
    exact List.mem_map.mpr ⟨o, ho, hi⟩
  simpa only [masterRequestObjDel, updateMaster, hd] using h

theorem Registration.Step.agree {i : Registration} (h : Agree s) (hr : Registered s i)
    (e : Step s i s') : Agree s' := by
  cases e
  cases i
  case slaveAdd => exact slaveAdd_agree h hr
  case slaveDel => exact slaveDel_agree h
  case objAdd   => exact objAdd_agree h hr
  case objDel   => exact objDel_agree h hr

section

theorem foldl_systemInitCB (docs : Collection) (ap : AiotcParams) :
    (docs.foldl (fun ap doc => systemInitCB doc ap) ap).masterArgs = ap.masterArgs ∧
    (docs.foldl (fun ap doc => systemInitCB doc ap) ap).configArgs = ap.configArgs := by
  induction docs generalizing ap
  case nil => exact ⟨rfl, rfl⟩
  case cons doc docs hi =>
    have ⟨hm, hc⟩ := hi (systemInitCB doc ap)
    have hs : (systemInitCB doc ap).masterArgs = ap.masterArgs ∧
        (systemInitCB doc ap).configArgs = ap.configArgs := by
      simp only [systemInitCB]
      split <;> exact ⟨rfl, rfl⟩
    exact ⟨hm.trans hs.left, hc.trans hs.right⟩

theorem getObjBufFromJson_document (j : CJson) :
    getObjBufFromJson (some (document j)) ["original"] = some j :=
  rfl

theorem slaveInitCB_spec {doc : CJson} (h : SlaveDoc doc) (node : Addr) (ap : AiotcParams)
    (hr : ap.masterArgs.slaveQueue.length < 1000) :
    ((ips (slaveInitCB node doc ap)).map some = (ips ap).map some ++ [docIp doc]) ∧
    ids (slaveInitCB node doc ap) = ids ap ∧
    (slaveInitCB node doc ap).configArgs = ap.configArgs ∧
    (slaveInitCB node doc ap).masterArgs.slaveQueue.length =
      ap.masterArgs.slaveQueue.length + 1 := by
  obtain ⟨j, p, rfl, hp, hd⟩ := h.exists_slave
  simp only [slaveInitCB, getObjBufFromJson_document, addSlave_of_room hp hr, hd]
  simp [ips, ids]

theorem foldl_slaveInitCB {docs : List (CJson × Nat)} (h : ∀ x ∈ docs, SlaveDoc x.1)
    (node : Nat → Addr) (ap : AiotcParams)
    (hr : ap.masterArgs.slaveQueue.length + docs.length ≤ 1000) :
    let ap' := docs.foldl (fun ap x => slaveInitCB (node x.2) x.1 ap) ap
    (ips ap').map some = (ips ap).map some ++ docs.map (fun x => docIp x.1) ∧
      ids ap' = ids ap ∧ ap'.configArgs = ap.configArgs := by
  induction docs generalizing ap
  case nil => simp
  case cons x docs hi =>
    simp only [List.length_cons] at hr
    have ⟨h₁, h₂, h₃, h₄⟩ := slaveInitCB_spec (h x List.mem_cons_self) (node x.2) ap (by omega)
    have ⟨h₁', h₂', h₃'⟩ := hi (fun y hy => h y (List.mem_cons_of_mem _ hy))
      (slaveInitCB (node x.2) x.1 ap) (by omega)
    exact ⟨by simp [h₁', h₁], h₂'.trans h₂, h₃'.trans h₃⟩

theorem objInitCB_spec {doc : CJson} (h : ObjDoc doc) (ap : AiotcParams)
    (hr : ap.masterArgs.mobjQueue.length < ap.configArgs.masterObjMax) :
    ((ids (objInitCB doc ap)).map some = (ids ap).map some ++ [docId doc]) ∧
    ips (objInitCB doc ap) = ips ap ∧ (objInitCB doc ap).configArgs = ap.configArgs ∧
    (objInitCB doc ap).masterArgs.mobjQueue.length = ap.masterArgs.mobjQueue.length + 1 := by
  obtain ⟨j, rfl, hc, hd⟩ := h.exists_obj
  rcases addObj_cases (some j) {} ap.configArgs.masterObjMax ap ap.masterArgs.mobjQueue with
    ⟨-, -, -, o, ho, hq⟩ | ⟨hno, -⟩
  case inl =>
    simp only [objInitCB, getObjBufFromJson_document, addMobj, hq, hd]
    simp [ips, ids, ho.id]
  case inr => exact absurd ⟨hc, ⟨rfl, rfl, rfl, rfl, rfl⟩, hr⟩ hno

theorem foldl_objInitCB {docs : Collection} (h : ∀ doc ∈ docs, ObjDoc doc) (ap : AiotcParams)
    (hr : docs = [] ∨
      (ap.masterArgs.mobjQueue.length + docs.length : Nat) ≤ ap.configArgs.masterObjMax) :
    let ap' := docs.foldl (fun ap doc => objInitCB doc ap) ap
    (ids ap').map some = (ids ap).map some ++ docs.map docId ∧ ips ap' = ips ap := by
  induction docs generalizing ap
  case nil => simp
  case cons doc docs hi =>
    have hr := hr.resolve_left (by simp)
    simp only [List.length_cons] at hr
    have ⟨h₁, h₂, h₃, h₄⟩ := objInitCB_spec (h doc List.mem_cons_self) ap (by omega)
    have ⟨h₁', h₂'⟩ := hi (fun y hy => h y (List.mem_cons_of_mem _ hy)) (objInitCB doc ap)
      (.inr (by rw [h₃]; omega))
    exact ⟨by simp [h₁', h₁], h₂'.trans h₂⟩

end

theorem perm_of_map_some {β : Type*} {xs ys : List β} (h : (xs.map some).Perm (ys.map some)) :
    xs.Perm ys := by
  simpa [List.filterMap_map] using h.filterMap id

-- `initMasterFromDB` queues a slave and an object for each document.
theorem Agree.initMasterFromDB {node : Nat → Addr} {db : DbParams} (h : Agree s)
    (hs : db.slave.Perm s.db.slave) (ho : db.obj.Perm s.db.obj) :
    let ap := initMasterFromDB node db { configArgs := s.ap.configArgs }
    (Master.ips ap).map some = db.slave.map docIp ∧
      (Master.ids ap).map some = db.obj.map docId := by
  have hslen : db.slave.length = s.ap.masterArgs.slaveQueue.length := by
    simpa [Master.ips, hs.length_eq] using congrArg List.length h.ips
  have holen : db.obj.length = s.ap.masterArgs.mobjQueue.length := by
    simpa [Master.ids, ho.length_eq] using congrArg List.length h.ids
  have hdocs : ∀ x ∈ db.slave.zipIdx, SlaveDoc x.1 := fun x hx =>
    h.slaves _ (hs.mem_iff.mp (List.fst_mem_of_mem_zipIdx hx))
  simp only [Master.initMasterFromDB]
  have ⟨hm, hc⟩ := foldl_systemInitCB db.systemInit { configArgs := s.ap.configArgs }
  generalize db.systemInit.foldl (fun ap doc => systemInitCB doc ap)
    { configArgs := s.ap.configArgs } = ap at hm hc ⊢
  have hips : Master.ips ap = [] := by simp [Master.ips, hm]
  have hids : Master.ids ap = [] := by simp [Master.ids, hm]
  have ⟨hips', hids', hcfg⟩ := foldl_slaveInitCB hdocs node ap (by
    rw [hm, List.length_zipIdx, hslen]
    simpa using h.room)
  generalize db.slave.zipIdx.foldl (fun ap x => slaveInitCB (node x.2) x.1 ap) ap = ap'
    at hips' hids' hcfg ⊢
  have hq : ap'.masterArgs.mobjQueue = [] := by
    simpa [Master.ids] using hids'.trans hids
  have ⟨hids'', hips''⟩ := foldl_objInitCB (fun doc hd => h.objs doc (ho.mem_iff.mp hd)) ap' (by
    rw [hcfg, hc, hq, List.length_nil, Nat.zero_add, holen]
    exact h.room'.imp_left fun hn => List.length_eq_zero_iff.mp (by simp [holen, hn]))
  constructor
  case left =>
    have hf : db.slave.zipIdx.map (fun x => docIp x.1) = db.slave.map docIp := by
      rw [← List.zipIdx_map_fst 0 db.slave, List.map_map]
      simp [Function.comp_def]
    simp [hips'', hips', hips, hf]
  case right => simp [hids'', hids', hids]

theorem Agree.restorable (h : Agree s) : Restorable s where
  ips node db hs ho := perm_of_map_some <| by
    rw [(h.initMasterFromDB hs ho).left, ← h.ips]
    exact hs.map docIp
  ids node db hs ho := perm_of_map_some <| by
    rw [(h.initMasterFromDB hs ho).right, ← h.ids]
    exact ho.map docId

theorem Agree.consistent (h : Agree s) : Consistent s where
  slave      := h.ips ▸ .refl _
  obj        := h.ids ▸ .refl _
  restorable := h.restorable

-- The slaves and objects of a master are those of the database, and are restored from there, in
-- all runs of requests that are registered as above.
theorem consistent_of_registered {cfg : ConfigParams} {tr : List (State × Registration)}
    (r : Run Registration.Step { ap := { configArgs := cfg } } tr s)
    (hr : Run.Meets Registered tr) : Run.Always Consistent tr s := by
  have h : Agree { ap := { configArgs := cfg } } := by
    constructor <;> simp [ips, ids]
  exact (r.always_of_meets (fun _ _ _ h hr e => e.agree h hr) h hr).mono fun _ h => h.consistent

section

theorem complete_camera (id : Int) (h : 0 ≤ id) : Complete (Slave.camera id) :=
  ⟨h, rfl, rfl, rfl⟩

theorem consistent_of_registered_witness :
    Consistent ([Registration.slaveAdd Polled.slaveText 8, .objAdd (Slave.camera 5)].foldl
      (fun s i => i.exec s) { ap := { configArgs := Slave.cfg } }) := by
  refine (consistent_of_registered (Run.of_trace Registration.exec _ _) ?_).last
  simp only [Run.trace, Run.meets_cons, Run.meets_nil, and_true]
  constructor
  case left =>
    rintro _ _ ⟨⟩ hs
    cases Option.some.inj hs
    exact ⟨rfl, by decide, rfl, by decide, by decide⟩
  case right =>
    rintro _ ⟨⟩ _
    exact ⟨complete_camera 5 (by decide), rfl, by decide, by decide⟩

-- An object that is deleted is still in the database.
theorem not_consistent :
    ¬∀ (cfg : ConfigParams) (tr : List (State × Registration)) (s : State),
      Run Registration.Step { ap := { configArgs := cfg } } tr s → Consistent s := by
  intro h
  have hc := h Slave.cfg _ _ <| Run.of_trace Registration.exec
    [.objAdd (Slave.camera 5), .objDel (Slave.camera 5)] _
  exact absurd hc.obj.length_eq (by decide)

end

end Master
