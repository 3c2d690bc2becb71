import Aiotc.Master.Algs

-- The calls of db.cpp over any server. What the server does to a collection is a parameter, of
-- which only what MongoDB documents is assumed: it does not say which one of several documents is
-- taken, nor in which order they are found. The lists of `Database` are one such server.

structure Selector where
  selectName : List CStr
  val        : DbVal

def Selector.selects (sel : Selector) : CJson → Bool :=
  Bson.selects sel.selectName sel.val

-- What db.cpp calls of the driver, with the states of a collection in `σ`. The query `none` is the
-- empty one.
structure Server (σ : Type) where
  deleteOne : Selector → σ → σ
  insertOne : CJson → σ → σ
  updateOne : Selector → Bson.Cmd → List CStr → DbVal → σ → σ
  find      : Option Selector → σ → List CJson

-- One of the documents in `p` is replaced by those of `f`, if there is one.
def Collection.OneReplaced (p : CJson → Bool) (f : CJson → Collection) (docs docs' : Collection) :
    Prop :=
  (∃ doc rest, p doc ∧ docs.Perm (doc :: rest) ∧ docs'.Perm (f doc ++ rest)) ∨
  ((∀ doc ∈ docs, ¬p doc) ∧ docs'.Perm docs)

-- `docs` are the documents of a collection, in any order.
structure Documented {σ : Type} (srv : Server σ) (docs : σ → Collection) : Prop where
  delete_one : ∀ sel t,
    Collection.OneReplaced sel.selects (fun _ => []) (docs t) (docs (srv.deleteOne sel t))
  insert_one : ∀ doc t, (docs (srv.insertOne doc t)).Perm (docs t ++ [doc])
  update_one : ∀ sel cmd names val t,
    Collection.OneReplaced sel.selects (fun doc => [Bson.updateDoc cmd val names doc]) (docs t)
      (docs (srv.updateOne sel cmd names val t))
  find       : ∀ sel t, (srv.find (some sel) t).Perm ((docs t).filter sel.selects)
  find_all   : ∀ t, (srv.find none t).Perm (docs t)

namespace Server

variable {σ : Type} (srv : Server σ)

def checkDel (sel : Selector) (table : σ) : σ :=
  srv.deleteOne sel table

def dbWrite (json : Text) (sel : Selector) (table : σ) : σ :=
  let table := srv.checkDel sel table
  match json with
  | some j => srv.insertOne (.object [("original", j)]) table
  | none   => table

def dbDel (sel : Selector) (table : σ) : σ :=
  srv.checkDel sel table

def dbUpdate (cmd : Bson.Cmd) (sel : Selector) (updateName : List CStr) (upd : DbVal) (table : σ) :
    σ :=
  srv.updateOne sel cmd updateName upd table

-- `mongoc_cursor_next` is called once.
def dbExsit (sel : Selector) (table : σ) : Bool :=
  (srv.find (some sel) table).head?.isSome

-- The documents in the order in which `callBack` gets them.
def dbTraverse (table : σ) : List CJson :=
  srv.find none table

end Server

-- The calls that change a collection.
inductive DbCall
  | write (json : Text) (sel : Selector)
  | del (sel : Selector)
  | update (cmd : Bson.Cmd) (sel : Selector) (updateName : List CStr) (upd : DbVal)

namespace DbCall

def exec {σ : Type} (srv : Server σ) : DbCall → σ → σ
  | write json sel                => srv.dbWrite json sel
  | del sel                       => srv.dbDel sel
  | update cmd sel updateName upd => srv.dbUpdate cmd sel updateName upd

-- Documents are selected by `key` alone, a document is written under the value that it has there,
-- and is not updated there.
def Keyed (key : List CStr) : DbCall → Prop
  | write json sel            => sel.selectName = key ∧
    ∀ j, json = some j → ∀ val, Bson.selects key val (.object [("original", j)]) → val = sel.val
  | del sel                   => sel.selectName = key
  | update _ sel updateName _ => sel.selectName = key ∧ Bson.Apart updateName key

end DbCall

-- No two documents are selected by one value.
def Collection.Unique (key : List CStr) (docs : Collection) : Prop :=
  ∀ val, docs.countP (Bson.selects key val) ≤ 1

namespace Collection

section

variable {p : CJson → Bool} {f : CJson → Collection} {docs docs' : Collection} {key : List CStr}

def replace (p : CJson → Bool) (f : CJson → Collection) (docs : Collection) : Collection :=
  docs.flatMap fun doc => if p doc then f doc else [doc]

theorem replace_of_forall_not (h : ∀ doc ∈ docs, ¬p doc) : replace p f docs = docs := by
  induction docs
  case nil => rfl
  case cons doc docs hi =>
    have ⟨hd, h⟩ := List.forall_mem_cons.mp h
    rw [replace, List.flatMap_cons, if_neg hd, ← replace, hi h]
    rfl

-- Where there is not more than one document to choose from the outcome is known.
theorem OneReplaced.perm (h : OneReplaced p f docs docs') (hu : docs.countP p ≤ 1) :
    docs'.Perm (replace p f docs) := by
  rcases h with ⟨doc, rest, hd, hp, hp'⟩ | ⟨hn, hp'⟩
  · have hr : ∀ d ∈ rest, ¬p d := by
      rw [hp.countP_eq, List.countP_cons_of_pos hd] at hu
      exact List.countP_eq_zero.mp (by omega)
    have hf : replace p f (doc :: rest) = f doc ++ rest := by
      rw [replace, List.flatMap_cons, if_pos hd, ← replace, replace_of_forall_not hr]
    exact hp'.trans (hf ▸ (hp.flatMap_right _).symm)
  · rwa [replace_of_forall_not hn]

theorem Unique.perm (h : Unique key docs) (hp : docs.Perm docs') : Unique key docs' :=
  fun val => hp.countP_eq _ ▸ h val

theorem OneReplaced.unique (h : OneReplaced p f docs docs') (hu : Unique key docs)
    (hf : ∀ val doc, (f doc).countP (Bson.selects key val) ≤
      [doc].countP (Bson.selects key val)) : Unique key docs' := by
  rcases h with ⟨doc, rest, -, hp, hp'⟩ | ⟨-, hp'⟩
  · intro val
    have hf := hf val doc
    have hu := hu val
    rw [hp.countP_eq, ← List.singleton_append, List.countP_append] at hu
    rw [hp'.countP_eq, List.countP_append]
    omega
  · exact hu.perm hp'.symm

-- What is deleted is not selected afterwards.
theorem OneReplaced.countP_eq_zero (h : OneReplaced p (fun _ => []) docs docs')
    (hu : docs.countP p ≤ 1) : docs'.countP p = 0 := by
  rcases h with ⟨doc, rest, hd, hp, hp'⟩ | ⟨hn, hp'⟩
  · rw [hp.countP_eq, List.countP_cons_of_pos hd] at hu
    rw [hp'.countP_eq, List.nil_append]
    omega
  · rw [hp'.countP_eq]
    exact List.countP_eq_zero.mpr hn

end

end Collection

section

variable {σ σ' : Type} {srv : Server σ} {srv' : Server σ'} {docs : σ → Collection}
  {docs' : σ' → Collection} {key : List CStr} {sel : Selector} {t : σ} {t' : σ'} {c : DbCall}

open Collection

theorem Documented.unique_checkDel (h : Documented srv docs) (hu : Unique key (docs t)) :
    Unique key (docs (srv.checkDel sel t)) :=
  (h.delete_one sel t).unique hu fun _ _ => Nat.zero_le _

-- A document is inserted after those with its value were deleted.
theorem Documented.unique_write (h : Documented srv docs) (hu : Unique key (docs t)) {json : Text}
    (hk : (DbCall.write json sel).Keyed key) : Unique key (docs (srv.dbWrite json sel t)) := by
  obtain ⟨rfl, hk⟩ := hk
  have hd : Unique sel.selectName (docs (srv.checkDel sel t)) := h.unique_checkDel hu
  cases json
  case none => exact hd
  case some j =>
    intro val
    have hz : (docs (srv.checkDel sel t)).countP (Bson.selects sel.selectName sel.val) = 0 :=
      (h.delete_one sel t).countP_eq_zero (hu sel.val)
    rw [Server.dbWrite, (h.insert_one _ _).countP_eq, List.countP_append]
    by_cases hs : Bson.selects sel.selectName val (.object [("original", j)])
    case pos =>
      rw [hk j rfl val hs, hz, Nat.zero_add]
      exact List.countP_le_length
    case neg =>
      rw [List.countP_singleton, if_neg hs]
      exact hd val

theorem Documented.unique_exec (h : Documented srv docs) (hu : Unique key (docs t))
    (hk : c.Keyed key) : Unique key (docs (c.exec srv t)) := by
  cases c
  case write json sel => exact h.unique_write hu hk
  case del sel        => exact h.unique_checkDel hu
  case update cmd sel names val =>
    refine (h.update_one sel cmd names val t).unique hu fun v doc => ?_
    simp only [List.countP_singleton, Bson.selects_updateDoc hk.right]
    exact Nat.le_refl _

-- Two servers with the same documents have the same ones after a call.
theorem Documented.perm_exec (h : Documented srv docs) (h' : Documented srv' docs')
    (hp : (docs t).Perm (docs' t')) (hu : Unique key (docs t)) (hk : c.Keyed key) :
    (docs (c.exec srv t)).Perm (docs' (c.exec srv' t')) := by
  have replaced {f : CJson → Collection} {sel : Selector} {d d' : Collection}
      (hs : sel.selectName = key) (ho : OneReplaced sel.selects f (docs t) d)
      (ho' : OneReplaced sel.selects f (docs' t') d') : d.Perm d' := by
    have hc : (docs t).countP sel.selects ≤ 1 := by
      subst hs
      exact hu sel.val
    exact (ho.perm hc).trans ((hp.flatMap_right _).trans (ho'.perm (hp.countP_eq _ ▸ hc)).symm)
  cases c
  case write json sel =>
    have hd := replaced hk.left (h.delete_one sel t) (h'.delete_one sel t')
    cases json
    case none => exact hd
    case some j =>
      exact (h.insert_one _ _).trans ((hd.append_right _).trans (h'.insert_one _ _).symm)
  case del sel => exact replaced hk (h.delete_one sel t) (h'.delete_one sel t')
  case update cmd sel names val =>
    exact replaced hk.left (h.update_one sel cmd names val t) (h'.update_one sel cmd names val t')

-- The same after all the calls of a run.
theorem Documented.perm_run (h : Documented srv docs) (h' : Documented srv' docs')
    (hp : (docs t).Perm (docs' t')) (hu : Unique key (docs t)) {cs : List DbCall}
    (hk : ∀ c ∈ cs, c.Keyed key) :
    (docs (cs.foldl (fun t c => c.exec srv t) t)).Perm
      (docs' (cs.foldl (fun t c => c.exec srv' t) t')) ∧
    Unique key (docs (cs.foldl (fun t c => c.exec srv t) t)) := by
  induction cs generalizing t t'
  case nil => exact ⟨hp, hu⟩
  case cons c cs hi =>
    have ⟨hc, hk⟩ := List.forall_mem_cons.mp hk
    exact hi (h.perm_exec h' hp hu hc) (h.unique_exec hu hc) hk

theorem Documented.dbExsit_eq (h : Documented srv docs) (sel : Selector) (t : σ) :
    srv.dbExsit sel t = (docs t).any sel.selects := by
  have hp := h.find sel t
  rw [Server.dbExsit, ← List.isSome_find?, ← List.head?_filter]
  cases hf : (docs t).filter sel.selects
  case nil =>
    rw [hf] at hp
    rw [hp.eq_nil]
  case cons doc ds =>
    cases hq : srv.find (some sel) t
    case nil    => simp [hf, hq] at hp
    case cons _ => rfl

end

-- The lists of documents are a server.

namespace Collection

def server : Server Collection where
  deleteOne sel               := List.eraseP sel.selects
  insertOne doc table         := table ++ [doc]
  updateOne sel cmd names val := dbUpdate cmd sel.selectName sel.val names val
  find sel table              := sel.elim table fun sel => table.filter sel.selects

theorem documented_server : Documented server id where
  delete_one sel table := by
    rcases Queue.delFromQueue_cases sel.selects table with ⟨q₁, doc, q₂, rfl, hs, hd⟩ | ⟨hs, hd⟩
    · exact .inl ⟨doc, q₁ ++ q₂, List.find?_some hs, List.perm_middle, .of_eq hd⟩
    · exact .inr ⟨List.find?_eq_none.mp hs, .of_eq hd⟩
  insert_one _ _ := .refl _
  update_one sel cmd names val table := by
    have hu := Bson.dbUpdate_eq cmd sel.selectName names sel.val val table
    rcases Queue.modifyFound_cases sel.selects (Bson.updateDoc cmd val names) table with
      ⟨q₁, doc, q₂, rfl, hs, -, hm⟩ | ⟨hs, -, hm⟩
    · exact .inl ⟨doc, q₁ ++ q₂, List.find?_some hs, List.perm_middle,
        (List.Perm.of_eq (hu.trans hm)).trans List.perm_middle⟩
    · exact .inr ⟨List.find?_eq_none.mp hs, .of_eq (hu.trans hm)⟩
  find _ _ := .refl _
  find_all _ := .refl _

end Collection

-- The functions of `Database` are those of db.cpp over this server.

theorem DbCall.exec_server (c : DbCall) (table : Collection) :
    c.exec Collection.server table =
      match c with
      | write json sel                => dbWrite json sel.selectName sel.val table
      | del sel                       => dbDel sel.selectName sel.val table
      | update cmd sel updateName upd =>
        dbUpdate cmd sel.selectName sel.val updateName upd table := by
  cases c <;> rfl

theorem dbExsit_eq (names : List CStr) (val : DbVal) (table : Collection) :
    dbExsit names val table = Collection.server.dbExsit ⟨names, val⟩ table :=
  (Collection.documented_server.dbExsit_eq ⟨names, val⟩ table).symm

-- Computations that fail together stay related.
theorem Option.Rel.bind {α β γ δ : Type*} {r : α → β → Prop} {q : γ → δ → Prop} {x : Option α}
    {y : Option β} {f : α → Option γ} {g : β → Option δ} (h : Option.Rel r x y)
    (hf : ∀ a b, r a b → Option.Rel q (f a) (g b)) : Option.Rel q (x.bind f) (y.bind g) := by
  cases h
  case none   => exact .none
  case some h => exact hf _ _ h

namespace Master

-- A master whose documents are kept by a server.
structure Backed (σ : Type) where
  ap    : AiotcParams
  slave : σ
  obj   : σ

-- The requests that add and delete slaves and objects.

namespace Registration

variable {σ : Type}

def slaveCalls : Registration → List DbCall
  | slaveAdd buf _ => (getStrValFromJson buf ["slaveIp"]).toList.map fun slaveIp =>
    .write buf ⟨["original", "slaveIp"], .str slaveIp⟩
  | slaveDel buf   => (getStrValFromJson buf ["slaveIp"]).toList.map fun slaveIp =>
    .del ⟨["original", "slaveIp"], .str slaveIp⟩
  | _              => []

def objCalls : Registration → List DbCall
  | objAdd buf =>
    let id := getIntValFromJson buf ["id"]
    if id < 0 then [] else [.write buf ⟨["original", "id"], .int id⟩]
  | _          => []

def execOver (srv : Server σ) (i : Registration) (s : Backed σ) : Backed σ where
  ap    := (i.exec { ap := s.ap }).ap
  slave := i.slaveCalls.foldl (fun t c => c.exec srv t) s.slave
  obj   := i.objCalls.foldl (fun t c => c.exec srv t) s.obj

-- The requests are those over the lists of documents.
theorem exec_eq (i : Registration) (s : State) : i.exec s =
    let s' := i.execOver Collection.server ⟨s.ap, s.db.slave, s.db.obj⟩
    { ap := s'.ap, db := { s.db with slave := s'.slave, obj := s'.obj } } := by
  cases i
  case slaveAdd buf node =>
    simp only [execOver, exec, masterRequestSlaveAdd, slaveCalls, objCalls]
    cases getStrValFromJson buf ["slaveIp"] <;> rfl
  case slaveDel buf =>
    simp only [execOver, exec, masterRequestSlaveDel, slaveCalls, objCalls]
    cases getStrValFromJson buf ["slaveIp"] <;> rfl
  case objAdd buf =>
    simp only [execOver, exec, masterRequestObjAdd, slaveCalls, objCalls]
    split <;> rfl
  case objDel buf => rfl

variable {s : State} {i : Registration}

theorem eq_of_selects {names : List CStr} {val v : DbVal} {doc : CJson}
    (h : Bson.fields names doc = [v.toJson]) (hs : Bson.selects names val doc) : val = v := by
  cases v <;> cases val <;> simp_all [Bson.selects, DbVal.toJson, DbVal.eq]

theorem slaveCalls_keyed (h : Registered s i) :
    ∀ c ∈ i.slaveCalls, c.Keyed ["original", "slaveIp"] := by
  cases i
  case slaveAdd buf node =>
    intro c hc
    obtain ⟨slaveIp, hi, rfl⟩ := List.mem_map.mp hc
    refine ⟨rfl, fun j hj val hs => eq_of_selects ?_ hs⟩
    have hd := (h j slaveIp hj (Option.mem_toList.mp hi)).right.right.left
    simp only [docIp] at hd
    split at hd <;> cases hd
    case h_1 hf => exact hf
  case slaveDel buf =>
    intro c hc
    obtain ⟨slaveIp, -, rfl⟩ := List.mem_map.mp hc
    rfl
  case objAdd | objDel => exact List.forall_mem_nil _

theorem objCalls_keyed (h : Registered s i) : ∀ c ∈ i.objCalls, c.Keyed ["original", "id"] := by
  cases i
  case slaveAdd | slaveDel | objDel => exact List.forall_mem_nil _
  case objAdd buf =>
    simp only [objCalls]
    split
    case isTrue => exact List.forall_mem_nil _
    case isFalse hn =>
      intro c hc
      cases List.mem_singleton.mp hc
      refine ⟨rfl, fun j hj val hs => eq_of_selects ?_ hs⟩
      have hd := (h j hj (by omega)).right.left
      simp only [docId] at hd
      split at hd <;> cases hd
      case h_1 hf => exact hf

end Registration

section

variable {σ : Type} {srv : Server σ} {docs : σ → Collection} {s : Backed σ} {i : Registration}

-- The server has the documents of a master over the lists that agrees with them.
structure Backs (docs : σ → Collection) (s : Backed σ) (m : State) : Prop where
  agree  : Agree m
  ap     : m.ap = s.ap
  slave  : (docs s.slave).Perm m.db.slave
  obj    : (docs s.obj).Perm m.db.obj
  slaves : Collection.Unique ["original", "slaveIp"] (docs s.slave)
  objs   : Collection.Unique ["original", "id"] (docs s.obj)

theorem Backs.execOver {m : State} (h : Backs docs s m) (hd : Documented srv docs)
    (hr : Registered { ap := s.ap } i) : Backs docs (i.execOver srv s) (i.exec m) := by
  have hr : Registered m i := by
    rw [← h.ap] at hr
    cases i <;> exact hr
  have ⟨hs, hsu⟩ := hd.perm_run Collection.documented_server h.slave h.slaves
    (i.slaveCalls_keyed hr)
  have ⟨ho, hou⟩ := hd.perm_run Collection.documented_server h.obj h.objs (i.objCalls_keyed hr)
  have hm := Registration.Step.agree h.agree hr rfl
  rw [i.exec_eq m] at hm ⊢
  exact ⟨hm, congrArg (fun ap => (i.exec { ap := ap }).ap) h.ap, hs, ho, hsu, hou⟩

-- What a master finds on its start, whatever the server, are the slaves and objects that it had.
theorem restored_of_documented (h : Documented srv docs) {cfg : ConfigParams} {t u : σ}
    (ht : docs t = []) (hu : docs u = []) {tr : List (Backed σ × Registration)}
    (r : Run (fun s i s' => i.execOver srv s = s') ⟨{ configArgs := cfg }, t, u⟩ tr s)
    (hr : Run.Meets (fun s i => Registered { ap := s.ap } i) tr) (node : Nat → Addr) :
    let ap := initMasterFromDB node { slave := srv.dbTraverse s.slave, obj := srv.dbTraverse s.obj }
      { configArgs := s.ap.configArgs }
    (ips ap).Perm (ips s.ap) ∧ (ids ap).Perm (ids s.ap) := by
  have hi : Backs docs ⟨{ configArgs := cfg }, t, u⟩ { ap := { configArgs := cfg } } := by
    refine ⟨?_, rfl, ?_, ?_, ?_, ?_⟩
    · constructor <;> simp [ips, ids]
    all_goals simp [ht, hu, Collection.Unique]
  have hp : ∀ s i s', (∃ m, Backs docs s m) → Registered { ap := s.ap } i →
      i.execOver srv s = s' → ∃ m, Backs docs s' m := by
    rintro s i _ ⟨m, hb⟩ hr rfl
    exact ⟨i.exec m, hb.execOver h hr⟩
  obtain ⟨m, hb⟩ := (r.always_of_meets hp ⟨_, hi⟩ hr).last
  have hr := hb.agree.restorable
  rw [← hb.ap]
  exact ⟨hr.ips node _ ((h.find_all _).trans hb.slave) ((h.find_all _).trans hb.obj),
    hr.ids node _ ((h.find_all _).trans hb.slave) ((h.find_all _).trans hb.obj)⟩

end

-- The requests for the algorithms of an object.

section

variable {σ : Type}

-- The object is changed, and what its document lists.
def requestTaskOver (srv : Server σ) (url : Url) (f : ObjParam → ObjParam) (cmd : Bson.Cmd)
    (algName : CStr) (buf : Text) (s : Backed σ) : Option (Backed σ × List Post) := do
  let (m, posts) ← requestObj url buf f { ap := s.ap }
  return ({ s with
    ap  := m.ap
    obj := srv.dbUpdate cmd ⟨["original", "id"], .int (getIntValFromJson buf ["id"])⟩
      ["original", "task", "alg"] (.str algName) s.obj }, posts)

def masterRequestTaskStartOver (srv : Server σ) (buf : Text) (malloc : Bool) (s : Backed σ) :
    Option (Backed σ × List Post) :=
  match getStrValFromJson buf ["alg"] with
  | none         => some (s, [])
  | some algName =>
    if getIntValFromJson buf ["id"] < 0 ∨
        srv.dbExsit ⟨["original", "task", "alg"], .str algName⟩ s.obj then
      some (s, [])
    else
      requestTaskOver srv .taskStart (addAlg algName malloc) .push algName buf s

def masterRequestTaskStopOver (srv : Server σ) (buf : Text) (s : Backed σ) :
    Option (Backed σ × List Post) :=
  match getStrValFromJson buf ["alg"] with
  | none         => some (s, [])
  | some algName =>
    if getIntValFromJson buf ["id"] < 0 then
      some (s, [])
    else
      requestTaskOver srv .taskStop (delAlg algName) .pull algName buf s

def Algs.execOver (srv : Server σ) : Algs.Label → Backed σ → Option (Backed σ)
  | .start buf, s => (masterRequestTaskStartOver srv buf true s).map Prod.fst
  | .stop buf, s  => (masterRequestTaskStopOver srv buf s).map Prod.fst

end

section

variable {σ : Type} {srv : Server σ} {docs : σ → Collection} {s s' : Backed σ} {m m' : State}

-- The objects and slaves of the two masters are the same, and the documents but for their order.
structure Shares (docs : σ → Collection) (m : State) (s : Backed σ) : Prop where
  ap   : m.ap = s.ap
  obj  : (docs s.obj).Perm m.db.obj
  objs : Collection.Unique ["original", "id"] (docs s.obj)

def Answers (docs : σ → Collection) : State × List Post → Backed σ × List Post → Prop :=
  fun x y => Shares docs x.1 y.1 ∧ x.2 = y.2

-- The database has no part in it.
theorem requestObj_of_ap (url : Url) (buf : Text) (f : ObjParam → ObjParam) (h : m.ap = m'.ap) :
    Option.Rel (fun x y => x.1.ap = y.1.ap ∧ x.1.db = m.db ∧ x.2 = y.2) (requestObj url buf f m)
      (requestObj url buf f m') := by
  simp only [requestObj, h]
  split
  case h_1 => exact .some ⟨h, rfl, rfl⟩
  case h_2 o _ =>
    cases httpPostSlave url buf m'.ap.masterArgs.slaveQueue o
    case none   => exact .none
    case some _ => exact .some ⟨by simp [updateMaster, h], rfl, rfl⟩

theorem algCall_keyed (cmd : Bson.Cmd) (id : Int) (algName : CStr) :
    (DbCall.update cmd ⟨["original", "id"], .int id⟩ ["original", "task", "alg"]
      (.str algName)).Keyed ["original", "id"] :=
  ⟨rfl, by decide⟩

theorem Shares.requestTask (h : Shares docs m s) (hd : Documented srv docs) (url : Url)
    (f : ObjParam → ObjParam) (cmd : Bson.Cmd) (algName : CStr) (buf : Text) :
    Option.Rel (Answers docs)
      (do
        let (m, posts) ← requestObj url buf f m
        return (updateObj (dbUpdate cmd ["original", "id"] (.int (getIntValFromJson buf ["id"]))
          ["original", "task", "alg"] (.str algName)) m, posts))
      (requestTaskOver srv url f cmd algName buf s) := by
  have hr : Option.Rel _ (requestObj url buf f m) (requestObj url buf f { ap := s.ap }) :=
    requestObj_of_ap url buf f h.ap
  refine hr.bind fun x y ⟨hap, hdb, hp⟩ => .some ⟨⟨hap, ?_, ?_⟩, hp⟩
  case refine_1 =>
    rw [updateObj, hdb]
    exact hd.perm_exec Collection.documented_server h.obj h.objs (algCall_keyed ..)
  case refine_2 => exact hd.unique_exec h.objs (algCall_keyed ..)

-- Two masters that share their documents give the same answers.

theorem Shares.taskStart (h : Shares docs m s) (hd : Documented srv docs) (buf : Text)
    (malloc : Bool) : Option.Rel (Answers docs) (masterRequestTaskStart buf malloc m)
      (masterRequestTaskStartOver srv buf malloc s) := by
  rw [masterRequestTaskStart, masterRequestTaskStartOver]
  cases getStrValFromJson buf ["alg"]
  case none => exact .some ⟨h, rfl⟩
  case some algName =>
    have he : srv.dbExsit ⟨["original", "task", "alg"], .str algName⟩ s.obj =
        dbExsit ["original", "task", "alg"] (.str algName) m.db.obj :=
      (hd.dbExsit_eq _ _).trans h.obj.any_eq
    simp only [he]
    split
    case isTrue  => exact .some ⟨h, rfl⟩
    case isFalse => exact h.requestTask hd ..

theorem Shares.taskStop (h : Shares docs m s) (hd : Documented srv docs) (buf : Text) :
    Option.Rel (Answers docs) (masterRequestTaskStop buf m)
      (masterRequestTaskStopOver srv buf s) := by
  rw [masterRequestTaskStop, masterRequestTaskStopOver]
  cases getStrValFromJson buf ["alg"]
  case none => exact .some ⟨h, rfl⟩
  case some algName =>
    simp only
    split
    case isTrue  => exact .some ⟨h, rfl⟩
    case isFalse => exact h.requestTask hd ..

theorem Shares.exec {a : Algs} (h : Shares docs a.master s) (hd : Documented srv docs)
    (l : Algs.Label) :
    Option.Rel (fun a s => Shares docs a.master s) (Algs.exec l a) (Algs.execOver srv l s) := by
  cases l
  case start buf =>
    rw [Algs.execOver, Option.map_eq_bind]
    exact (h.taskStart hd buf true).bind fun _ _ h => .some h.left
  case stop buf =>
    rw [Algs.execOver, Option.map_eq_bind]
    exact (h.taskStop hd buf).bind fun _ _ h => .some h.left

-- The objects have the same algorithms, whatever the server.
theorem Shares.run {a : Algs} (h : Shares docs a.master s) (hd : Documented srv docs)
    (ls : List Algs.Label) :
    Option.Rel (fun a s => Shares docs a.master s) (ls.foldlM (fun a l => Algs.exec l a) a)
      (ls.foldlM (fun s l => Algs.execOver srv l s) s) := by
  induction ls generalizing a s
  case nil          => exact .some h
  case cons l ls hi => exact (h.exec hd l).bind fun _ _ h => hi h

end

end Master
