import Aiotc.Master.Deadlock
import Aiotc.Master.Restore
import Aiotc.Master.Settings

-- Where the slave pointers of the objects lead to.

open Queue

namespace Master

def nodes (slaveQueue : SlaveQueue) : List Addr :=
  slaveQueue.map Prod.fst

-- The slave of an object is queued, and an object is attached only if it has a slave.
structure Pointing (mp : MasterParams) : Prop where
  slave       : ∀ o ∈ mp.mobjQueue, ∀ a, o.slave = some a → a ∈ nodes mp.slaveQueue
  attachSlave : ∀ o ∈ mp.mobjQueue, o.attachSlave = 1 → o.slave ≠ none

-- The same for one object, whatever `attachSlave` is.
structure Links (sq : SlaveQueue) (o : ObjParam) : Prop where
  slave       : ∀ a, o.slave = some a → a ∈ nodes sq
  attachSlave : o.attachSlave ≠ 0 → o.slave ≠ none

def Linked (mp : MasterParams) : Prop :=
  ∀ o ∈ mp.mobjQueue, Links mp.slaveQueue o

section

variable {mp mp' : MasterParams} {sq sq' : SlaveQueue} {o o' : ObjParam} {buf : Text} {a : Addr}
  {f : SlaveParam → SlaveParam}

theorem Linked.pointing (h : Linked mp) : Pointing mp where
  slave o ho := (h o ho).slave
  attachSlave o ho ha := (h o ho).attachSlave (ha ▸ by decide)

theorem Links.mono (h : Links sq o) (hn : ∀ a ∈ nodes sq, a ∈ nodes sq') (hs : o'.slave = o.slave)
    (ha : o'.attachSlave = o.attachSlave ∨ o'.attachSlave = 0) : Links sq' o' where
  slave a he := hn a (h.slave a (hs ▸ he))
  attachSlave hne := by
    rw [hs]
    exact h.attachSlave (ha.resolve_right hne ▸ hne)

-- The rule for what neither deletes a slave nor gives one to an object.
theorem Linked.mono (h : Linked mp) (hn : ∀ a ∈ nodes mp.slaveQueue, a ∈ nodes mp'.slaveQueue)
    (ho : ∀ o' ∈ mp'.mobjQueue, ∃ o ∈ mp.mobjQueue, o'.slave = o.slave ∧
      (o'.attachSlave = o.attachSlave ∨ o'.attachSlave = 0)) : Linked mp' := by
  intro o' hm
  have ⟨o, hm, hs, ha⟩ := ho o' hm
  exact (h o hm).mono hn hs ha

@[simp]
theorem nodes_updateSlave : nodes (updateSlave a f sq) = nodes sq :=
  map_modifyFound fun _ => rfl

theorem nodes_addSlave (buf : Text) (arg : Bool) (node : Ptr) (mp : MasterParams) :
    (addSlave buf arg node mp).mobjQueue = mp.mobjQueue ∧
      (nodes (addSlave buf arg node mp).slaveQueue = nodes mp.slaveQueue ∨ ∃ a, node = some a ∧
        nodes (addSlave buf arg node mp).slaveQueue = nodes mp.slaveQueue ++ [a]) := by
  simp only [addSlave]
  split
  case h_2 => exact ⟨rfl, .inl rfl⟩
  case h_1 p a _ =>
    split
    case isFalse => exact ⟨rfl, .inl rfl⟩
    case isTrue =>
      refine ⟨rfl, ?_⟩
      rcases putToShmQueue_cases (a, p) 1000 true mp.slaveQueue with ⟨-, h⟩ | ⟨-, h⟩
      · exact .inr ⟨a, rfl, by simp [h, nodes]⟩
      · exact .inl (by rw [h])

theorem Linked.addSlave {arg : Bool} {node : Ptr} (h : Linked mp) :
    Linked (addSlave buf arg node mp) := by
  have ⟨hm, hn⟩ := nodes_addSlave buf arg node mp
  refine h.mono (fun a ha => ?_) fun o ho => ⟨o, hm ▸ ho, rfl, .inl rfl⟩
  rcases hn with hn | ⟨b, -, hn⟩
  · rwa [hn]
  · exact hn ▸ List.mem_append_left _ ha

theorem Linked.delObj (h : Linked mp) : Linked { mp with mobjQueue := delObj buf mp.mobjQueue } :=
  h.mono (fun _ => id) fun o ho => ⟨o, List.eraseP_subset ho, rfl, .inl rfl⟩

theorem mem_mapM {α β : Type*} {g : α → Option β} {xs : List α} {ys : List β}
    (h : xs.mapM g = some ys) : ∀ y ∈ ys, ∃ x ∈ xs, g x = some y := by
  induction xs generalizing ys
  case nil =>
    cases h
    simp
  case cons x xs hi =>
    simp only [List.mapM_cons, bind, Option.bind_eq_some_iff, pure, Option.some.injEq] at h
    obtain ⟨y, hy, ys, hys, rfl⟩ := h
    intro z hz
    cases List.mem_cons.mp hz
    case inl hz => exact ⟨x, List.mem_cons_self, hz ▸ hy⟩
    case inr hz =>
      have ⟨w, hw, he⟩ := hi hys z hz
      exact ⟨w, List.mem_cons_of_mem _ hw, he⟩

theorem Linked.detachSlave {p : SlaveParam} (h : Linked mp) (e : detachSlave p mp = some mp') :
    Linked mp' ∧ mp'.slaveQueue = mp.slaveQueue := by
  have ⟨q, hq, e⟩ := Option.bind_eq_some_iff.mp e
  cases e
  refine ⟨h.mono (fun _ => id) fun o' ho' => ?_, rfl⟩
  have ⟨o, ho, hd⟩ := mem_mapM hq o' ho'
  cases detachObjSlave_cases hd
  case inl he => exact ⟨o, ho, he ▸ rfl, .inl (he ▸ rfl)⟩
  case inr he => exact ⟨o, ho, he ▸ rfl, .inr (he ▸ rfl)⟩

theorem Linked.requestObj {url : Url} {g : ObjParam → ObjParam} {s s' : State} {posts : List Post}
    (h : Linked s.ap.masterArgs)
    (hg : ∀ o, (g o).slave = o.slave ∧ (g o).attachSlave = o.attachSlave)
    (e : requestObj url buf g s = some (s', posts)) : Linked s'.ap.masterArgs := by
  rcases Cluster.requestObj_cases e with ⟨rfl, -⟩ | ⟨o, -, hq, hm, -⟩
  case inl => exact h
  case inr =>
    apply h.mono (hq ▸ fun _ => id)
    intro o' ho'
    rw [hm] at ho'
    cases of_mem_modifyFound ho'
    case inl ho' => exact ⟨o', ho', rfl, .inl rfl⟩
    case inr ho' =>
      obtain ⟨x, hx, rfl⟩ := ho'
      exact ⟨x, hx, (hg x).left, .inl (hg x).right⟩

-- The object that a visit of `mobjManager` leaves, where it had a slave.
theorem Links.mobjManager {tvSec : Int} {r : Placed} (h : Links sq o) (hs : o.slave ≠ none)
    (e : mobjManager tvSec sq o = some r) : Links sq r.obj := by
  simp only [Master.mobjManager, if_neg hs] at e
  split at e
  case isTrue ha =>
    obtain ⟨p, -, e⟩ := Option.bind_eq_some_iff.mp e
    split at e
    case isTrue =>
      cases e
      exact ⟨h.slave, fun _ => hs⟩
    case isFalse =>
      split at e <;> cases e
      · exact ⟨fun a ha => absurd ha (by simp), fun hn => absurd ha.right hn⟩
      · exact h
  case isFalse =>
    cases e
    exact h

theorem Links.place {lowest : Option (Addr × SlaveParam)} (h : Links sq o)
    (hl : ∀ x, lowest = some x → x.1 ∈ nodes sq) : Links sq (place lowest o).obj := by
  cases lowest
  case none => exact h
  case some x =>
    refine ⟨fun a ha => ?_, fun _ => nofun⟩
    cases ha
    exact hl x rfl

theorem Linked.set {i : Nat} {slaveQueue : SlaveQueue} {mobjQueue : List ObjParam}
    (h : Linked ⟨slaveQueue, mobjQueue⟩) (ho : Links slaveQueue o) :
    Linked ⟨slaveQueue, mobjQueue.set i o⟩ := by
  intro o' hm
  cases List.mem_or_eq_of_mem_set hm
  case inl hm => exact h o' hm
  case inr hm => exact hm ▸ ho

-- The slave that `initObjTask` finds is queued.
theorem links_of_new {ap : AiotcParams} (h : NewObj buf ap o) :
    Links ap.masterArgs.slaveQueue o := by
  refine ⟨fun a ha => ?_, fun hne => absurd h.attachSlave hne⟩
  rw [h.slave, initObjTask.slave] at ha
  split at ha
  case h_2 => cases ha
  case h_1 slaveIp _ =>
    split at ha
    case h_2 => cases ha
    case h_1 x hx =>
      cases ha
      exact List.mem_map_of_mem (searchFromQueue_some hx).left

-- The nodes of the slaves that are already restored come before `node k`.
structure Fresh (node : Nat → Addr) (k : Nat) (mp : MasterParams) : Prop where
  nodup : (nodes mp.slaveQueue).Nodup
  lt    : ∀ a ∈ nodes mp.slaveQueue, ∃ i < k, a = node i
  empty : mp.mobjQueue = []

theorem Fresh.slaveInitCB {node : Nat → Addr} {k : Nat} {ap : AiotcParams}
    (h : Fresh node k ap.masterArgs) (hn : node.Injective) (doc : CJson) :
    Fresh node (k + 1) (slaveInitCB (node k) doc ap).masterArgs := by
  have hk : Fresh node (k + 1) ap.masterArgs := by
    refine ⟨h.nodup, fun a ha => ?_, h.empty⟩
    obtain ⟨i, hi, rfl⟩ := h.lt a ha
    exact ⟨i, by omega, rfl⟩
  simp only [Master.slaveInitCB]
  split
  case h_1 => exact hk
  case h_2 original _ =>
    obtain ⟨hm, hq⟩ := nodes_addSlave (some original) true (some (node k)) ap.masterArgs
    cases hq
    case inl hq => exact ⟨hq ▸ hk.nodup, hq ▸ hk.lt, hm.trans hk.empty⟩
    case inr hq =>
      obtain ⟨a, ha, hq⟩ := hq
      cases ha
      refine ⟨?_, fun a ha => ?_, hm.trans hk.empty⟩
      · rw [hq, List.nodup_append]
        refine ⟨h.nodup, List.nodup_singleton _, fun a ha b hb hab => ?_⟩
        obtain ⟨i, hi, rfl⟩ := h.lt a ha
        rw [List.mem_singleton] at hb
        have := hn (hab.trans hb)
        omega
      · rw [hq, List.mem_append, List.mem_singleton] at ha
        cases ha
        case inl ha => exact hk.lt a ha
        case inr ha => exact ⟨k, by omega, ha⟩

theorem Fresh.foldl_slaveInitCB {node : Nat → Addr} {k : Nat} {ap : AiotcParams}
    (h : Fresh node k ap.masterArgs) (hn : node.Injective) (docs : Collection) :
    Fresh node (k + docs.length)
      ((docs.zipIdx k).foldl (fun ap x => Master.slaveInitCB (node x.2) x.1 ap) ap).masterArgs := by
  induction docs generalizing k ap
  case nil => exact h
  case cons doc docs hi =>
    have hd := hi (h.slaveInitCB hn doc)
    rw [List.length_cons, ← Nat.add_assoc, Nat.add_right_comm]
    exact hd

theorem Linked.objInitCB {ap : AiotcParams} (h : Linked ap.masterArgs) (doc : CJson) :
    Linked (objInitCB doc ap).masterArgs ∧
      (objInitCB doc ap).masterArgs.slaveQueue = ap.masterArgs.slaveQueue := by
  simp only [Master.objInitCB]
  split
  case h_1 => exact ⟨h, rfl⟩
  case h_2 original _ =>
    refine ⟨fun o ho => ?_, rfl⟩
    simp only [addMobj] at ho
    rcases addObj_cases (some original) {} ap.configArgs.masterObjMax ap
      ap.masterArgs.mobjQueue with ⟨-, -, -, x, hx, hq⟩ | ⟨-, hq⟩
    · rw [hq, List.mem_append, List.mem_singleton] at ho
      cases ho
      case inl ho => exact h o ho
      case inr ho =>
        have hl := links_of_new hx
        exact ho ▸ hl
    · exact h o (hq ▸ ho)

theorem Linked.foldl_objInitCB {ap : AiotcParams} (h : Linked ap.masterArgs) (docs : Collection) :
    Linked (docs.foldl (fun ap doc => Master.objInitCB doc ap) ap).masterArgs ∧
      (docs.foldl (fun ap doc => Master.objInitCB doc ap) ap).masterArgs.slaveQueue =
        ap.masterArgs.slaveQueue := by
  induction docs generalizing ap
  case nil => exact ⟨h, rfl⟩
  case cons doc docs hi =>
    have ⟨hd, hs⟩ := h.objInitCB doc
    have ⟨hl, hs'⟩ := hi hd
    exact ⟨hl, hs'.trans hs⟩

end

namespace Threads

-- A master that has read its database. The node of the `i`th slave is put at `node i`.
def init (node : Nat → Addr) (db : DbParams) (ap : AiotcParams) : Threads where
  ap := initMasterFromDB node db { ap with masterArgs := {} }

def Pointed (s : Threads) : Prop :=
  Pointing s.ap.masterArgs

-- The nodes that are queued have addresses of their own, as `shmMalloc` gives them out.
def AllocStep (s : Threads) (l : Label) (s' : Threads) : Prop :=
  Step s l s' ∧ (nodes s'.slaveQueue).Nodup

-- No object has the slave that the request deletes.
def Unused (s : Threads) (buf : Text) : Prop :=
  ∀ slaveIp x, getStrValFromJson buf ["slaveIp"] = some slaveIp →
    searchFromQueue (conditionBySlaveIp slaveIp) s.slaveQueue = some x →
    ∀ o ∈ s.mobjQueue, o.slave ≠ some x.1

-- The slave of an object that gets into the queue is still there.
def Anchored (s : Threads) (malloc : ObjMalloc) (o : ObjParam) : Prop :=
  malloc.node = true → s.mobjQueue.length < s.ap.configArgs.masterObjMax →
    ∀ a, o.slave = some a → a ∈ nodes s.slaveQueue

-- What a thread does after it has posted `mutex_slave`, or does without `mutex_mobj`, is about
-- slaves that are still queued, and deletes none that an object has.
def Guarded (s : Threads) : Label → Prop
  | .objManager _ _ => ∀ i x, s.manager = .place i (some x) → x.1 ∈ nodes s.slaveQueue
  | .rest i         => ∀ t, s.rest[i]? = some t → t.inside = true →
    (∀ buf, t.handler = .updateMaster .slave (delSlave buf) → Unused s buf) ∧
    ∀ malloc o, t.handler = Request.putObj malloc (some o) → Anchored s malloc o
  | _               => True

-- What the requests still do.
inductive Known : Handler → Prop
  | ended : Known .ended
  | harmless (sem : Option Sem) (body : AiotcParams → Option (AiotcParams × Handler)) :
    (∀ ap r, body ap = some r → Linked ap.masterArgs → Linked r.1.masterArgs) →
    (∀ ap r, body ap = some r → r.2 = .ended) → Known (.step sem body)
  | objAdd (sem : Option Sem) (buf : Text) (malloc : ObjMalloc) :
    Known (.step sem fun ap => some (ap, Request.putObj malloc (newObj buf malloc ap)))
  | putObj (malloc : ObjMalloc) (o : ObjParam) : o.attachSlave = 0 →
    Known (Request.putObj malloc (some o))
  | delSlave (buf : Text) : Known (.updateMaster .slave (Master.delSlave buf))

structure Sound (s : Threads) : Prop where
  linked : Linked s.ap.masterArgs
  known  : ∀ t ∈ s.rest, Known t.handler
  nodup  : (nodes s.slaveQueue).Nodup

variable {s s' : Threads} {l : Label} {i : Nat} {a : Addr}

theorem known_updateMaster {sem : Sem} {f : MasterParams → MasterParams}
    (h : ∀ mp, Linked mp → Linked (f mp)) : Known (.updateMaster sem f) := by
  refine .harmless _ _ (fun ap r hr hl => ?_) fun ap r hr => ?_ <;> cases hr
  · exact h _ hl
  · rfl

theorem known_obj (url : Url) (buf : Text) {f : ObjParam → ObjParam}
    (hf : ∀ o, (f o).slave = o.slave ∧ (f o).attachSlave = o.attachSlave) :
    Known (Request.obj url buf f) := by
  refine .harmless _ _ (fun ap r hr hl => ?_) fun ap r hr => ?_ <;>
    simp only [Option.map_eq_some_iff] at hr <;>
    obtain ⟨_, ⟨⟨s', posts⟩, he, rfl⟩, rfl⟩ := hr
  · exact Linked.requestObj (s := { ap := ap }) hl hf he
  · rfl

theorem known_handler (r : Request) : Known r.handler := by
  cases r
  case systemInit buf malloc =>
    refine .harmless _ _ (fun ap r hr hl => ?_) fun ap r hr => ?_ <;> cases hr
    · exact hl
    · rfl
  case slaveAdd buf arg node =>
    simp only [Request.handler]
    split
    case isTrue  => exact known_updateMaster fun _ h => h.addSlave
    case isFalse => exact .ended
  case slaveDel buf =>
    simp only [Request.handler]
    split
    case isTrue  => exact .delSlave buf
    case isFalse => exact .ended
  case objAdd buf malloc =>
    simp only [Request.handler]
    split
    case isTrue  => exact .ended
    case isFalse => exact .objAdd _ buf malloc
  case objDel buf => exact known_updateMaster fun _ h => h.delObj
  case command cmd buf =>
    simp only [Request.handler]
    split
    case h_1 => exact .ended
    case h_2 => exact known_obj _ _ fun _ => ⟨rfl, rfl⟩
  case taskStart buf exsit malloc =>
    simp only [Request.handler]
    split
    case h_1 => exact .ended
    case h_2 =>
      split
      case isTrue  => exact .ended
      case isFalse => exact known_obj _ _ fun _ => ⟨rfl, rfl⟩
  case taskStop buf =>
    simp only [Request.handler]
    split
    case h_1 => exact .ended
    case h_2 =>
      split
      case isTrue  => exact .ended
      case isFalse => exact known_obj _ _ fun _ => ⟨rfl, rfl⟩

theorem linked_setSlave {f : SlaveParam → SlaveParam} (h : Linked s.ap.masterArgs) :
    Linked (s.setSlave a f).ap.masterArgs :=
  h.mono (fun b hb => by simpa [setSlave, setMaster, slaveQueue] using hb)
    fun o ho => ⟨o, ho, rfl, .inl rfl⟩

theorem slaveLoadThread_linked {ack : Option Text} {tvSec : Int} (h : Linked s.ap.masterArgs)
    (e : slaveLoadThread ack tvSec s = some s') :
    Linked s'.ap.masterArgs ∧ s'.rest = s.rest := by
  cases slaveLoadThread_step e
  case detach      => exact ⟨linked_setSlave h, rfl⟩
  case poll        => exact ⟨linked_setSlave h, rfl⟩
  case offline     => exact ⟨linked_setSlave h, rfl⟩
  case postMobj hd => exact ⟨(h.detachSlave hd).left, rfl⟩
  all_goals exact ⟨h, rfl⟩

theorem linked_setPlaced {r : Placed} (h : Linked s.ap.masterArgs)
    (hr : Links s.slaveQueue r.obj) : Linked (s.setPlaced i r).ap.masterArgs :=
  h.set hr

theorem objManagerThread_linked {ack : Option Text} {tvSec : Int} (h : Linked s.ap.masterArgs)
    (hg : Guarded s (.objManager ack tvSec)) (e : objManagerThread ack tvSec s = some s') :
    Linked s'.ap.masterArgs ∧ s'.rest = s.rest := by
  cases objManagerThread_step e
  case visit i o r hm ho hs hr =>
    have hl := (h o (List.mem_of_getElem? ho)).mobjManager hs hr
    exact ⟨linked_setPlaced h hl, rfl⟩
  case place i lowest o hm ho =>
    have hl := (h o (List.mem_of_getElem? ho)).place fun x hx => hg i x (hx ▸ hm)
    exact ⟨linked_setPlaced h hl, rfl⟩
  case redirect => exact ⟨linked_setSlave h, rfl⟩
  all_goals exact ⟨h, rfl⟩

theorem linked_delSlave {buf : Text} (h : Linked s.ap.masterArgs) (hu : Unused s buf) :
    Linked (delSlave buf s.ap.masterArgs) := by
  simp only [delSlave]
  split
  case h_1 => exact h
  case h_2 slaveIp hs =>
    rcases delFromQueue_cases (conditionBySlaveIp slaveIp) s.slaveQueue with
      ⟨q₁, x, q₂, hq, hx, hd⟩ | ⟨-, hd⟩
    case inr =>
      intro o ho
      refine ⟨fun a ha => ?_, (h o ho).attachSlave⟩
      change a ∈ nodes (delFromQueue (conditionBySlaveIp slaveIp) s.slaveQueue)
      rw [hd]
      exact (h o ho).slave a ha
    case inl =>
      intro o ho
      refine ⟨fun a ha => ?_, (h o ho).attachSlave⟩
      have hm : a ∈ nodes s.slaveQueue := (h o ho).slave a ha
      have hne : a ≠ x.1 := by
        rintro rfl
        exact hu slaveIp x hs hx o ho ha
      change a ∈ nodes (delFromQueue (conditionBySlaveIp slaveIp) s.slaveQueue)
      rw [hd]
      simp only [hq, nodes, List.map_append, List.map_cons, List.mem_append, List.mem_cons] at hm ⊢
      exact hm.imp_right (·.resolve_left hne)

theorem linked_putObj {malloc : ObjMalloc} {o : ObjParam} (h : Linked s.ap.masterArgs)
    (ho : o.attachSlave = 0) (ha : Anchored s malloc o) :
    Linked { s.ap.masterArgs with
      mobjQueue := (putToShmQueue o s.ap.configArgs.masterObjMax malloc.node s.mobjQueue).2 } := by
  intro o' hm
  rcases putToShmQueue_cases o s.ap.configArgs.masterObjMax malloc.node s.mobjQueue with
    ⟨⟨hl, hn⟩, hp⟩ | ⟨-, hp⟩
  case inl =>
    simp only [hp, List.mem_append, List.mem_singleton] at hm
    cases hm
    case inl hm => exact h o' hm
    case inr hm =>
      subst hm
      exact ⟨ha hn hl, fun hne => absurd ho hne⟩
  case inr =>
    rw [hp] at hm
    exact h o' hm

-- What the next step of a request leaves.
theorem Known.run {hd : Handler} {sem : Option Sem} {r : AiotcParams × Handler}
    {body : AiotcParams → Option (AiotcParams × Handler)} (hk : Known hd) (hh : hd = .step sem body)
    (e : body s.ap = some r) (h : Linked s.ap.masterArgs)
    (hdel : ∀ buf, hd = .updateMaster .slave (Master.delSlave buf) → Unused s buf)
    (hput : ∀ malloc o, hd = Request.putObj malloc (some o) → Anchored s malloc o) :
    Linked r.1.masterArgs ∧ Known r.2 := by
  cases hk
  case ended => cases hh
  case harmless hl hr =>
    cases hh
    exact ⟨hl _ _ e h, hr _ _ e ▸ .ended⟩
  case objAdd buf malloc =>
    cases hh
    cases e
    refine ⟨h, ?_⟩
    cases ho : newObj buf malloc s.ap
    case none   => exact .ended
    case some o => exact .putObj malloc o (newObj_spec ho).attachSlave
  case putObj malloc o ho =>
    have hu := hput malloc o rfl
    cases hh
    cases e
    exact ⟨linked_putObj h ho hu, .ended⟩
  case delSlave buf =>
    have hu := hdel buf rfl
    cases hh
    cases e
    exact ⟨linked_delSlave h hu, .ended⟩

theorem restThread_linked (h : Linked s.ap.masterArgs) (hk : ∀ t ∈ s.rest, Known t.handler)
    (hg : Guarded s (.rest i)) (e : restThread i s = some s') :
    Linked s'.ap.masterArgs ∧ ∀ t ∈ s'.rest, Known t.handler := by
  have hset : ∀ u, Known u.handler → ∀ t ∈ s.rest.set i u, Known t.handler := by
    intro u hu t ht
    cases List.mem_or_eq_of_mem_set ht
    case inl ht => exact hk t ht
    case inr ht => exact ht ▸ hu
  cases restThread_step e
  case wait t _ _ ht _ _ _ =>
    have ht : Known t.handler := hk t (List.mem_of_getElem? ht)
    exact ⟨h, hset _ ht⟩
  case run ht hh hi hr =>
    have ⟨hdel, hput⟩ := hg _ ht hi
    have ⟨hl, hr⟩ := (hk _ (List.mem_of_getElem? ht)).run hh hr h hdel hput
    exact ⟨hl, hset _ hr⟩
  case free ht hh hr =>
    have ⟨hl, hr⟩ := (hk _ (List.mem_of_getElem? ht)).run hh hr h
      (fun buf he => by cases hh.symm.trans he) fun malloc o he => by cases hh.symm.trans he
    exact ⟨hl, hset _ hr⟩

theorem AllocStep.sound (h : Sound s) (hg : Guarded s l) (e : AllocStep s l s') : Sound s' := by
  obtain ⟨e, hn⟩ := e
  cases l
  case slaveLoad =>
    obtain ⟨hl, hr⟩ := slaveLoadThread_linked h.linked e
    exact ⟨hl, hr ▸ h.known, hn⟩
  case objManager =>
    obtain ⟨hl, hr⟩ := objManagerThread_linked h.linked hg e
    exact ⟨hl, hr ▸ h.known, hn⟩
  case request r =>
    cases e
    refine ⟨h.linked, fun t ht => ?_, hn⟩
    cases List.mem_append.mp ht
    case inl ht => exact h.known t ht
    case inr ht => exact List.mem_singleton.mp ht ▸ known_handler r
  case rest =>
    have ⟨hl, hk⟩ := restThread_linked h.linked h.known hg e
    exact ⟨hl, hk, hn⟩

-- Where a slave is left out of the queue.
theorem not_mem_delSlave {buf : Text} {slaveIp : CStr} {x : Addr × SlaveParam}
    (hn : (nodes s.slaveQueue).Nodup) (hs : getStrValFromJson buf ["slaveIp"] = some slaveIp)
    (hx : searchFromQueue (conditionBySlaveIp slaveIp) s.slaveQueue = some x) :
    x.1 ∉ nodes (delSlave buf s.ap.masterArgs).slaveQueue := by
  rcases delFromQueue_cases (conditionBySlaveIp slaveIp) s.slaveQueue with
    ⟨q₁, y, q₂, hq, hy, hd⟩ | ⟨hy, -⟩
  case inr => cases hy.symm.trans hx
  case inl =>
    cases hy.symm.trans hx
    simp only [delSlave, hs]
    change x.1 ∉ nodes (delFromQueue (conditionBySlaveIp slaveIp) s.slaveQueue)
    rw [hd]
    simp only [hq, nodes, List.map_append, List.map_cons, List.nodup_append, List.nodup_cons] at hn
    simp only [nodes, List.map_append, List.mem_append, not_or]
    exact ⟨fun hm => hn.right.right x.1 hm x.1 List.mem_cons_self rfl, hn.right.left.left⟩

theorem Step.unused {t : RestThread} {buf : Text} (hn : (nodes s.slaveQueue).Nodup)
    (ht : s.rest[i]? = some t) (hi : t.inside = true)
    (hh : t.handler = .updateMaster .slave (delSlave buf)) (e : Step s (.rest i) s')
    (hp : Pointed s') : Unused s buf := by
  intro slaveIp x hs hx o ho hox
  simp only [Step, exec, restThread, ht, Option.bind_eq_bind, Option.bind_some, hh, hi,
    Handler.updateMaster, Handler.critical, Option.map_some] at e
  cases e
  have hq : (delSlave buf s.ap.masterArgs).mobjQueue = s.mobjQueue := by
    simp only [delSlave, hs]
    rfl
  exact not_mem_delSlave hn hs hx (hp.slave o (hq ▸ ho) x.1 hox)

theorem Step.anchored {t : RestThread} {malloc : ObjMalloc} {o : ObjParam}
    (ht : s.rest[i]? = some t) (hi : t.inside = true)
    (hh : t.handler = Request.putObj malloc (some o)) (e : Step s (.rest i) s') (hp : Pointed s') :
    Anchored s malloc o := by
  intro hn hl a ha
  simp only [Step, exec, restThread, ht, Option.bind_eq_bind, Option.bind_some, hh, hi,
    Request.putObj, Handler.critical, Option.map_some] at e
  cases e
  refine hp.slave o ?_ a ha
  change o ∈ (putToShmQueue o s.ap.configArgs.masterObjMax malloc.node s.mobjQueue).2
  rw [hn, putToShmQueue_of_room hl]
  simp

theorem init_sound {node : Nat → Addr} {db : DbParams} {ap : AiotcParams} (hn : node.Injective) :
    Sound (init node db ap) := by
  obtain ⟨hm, -⟩ := foldl_systemInitCB db.systemInit { ap with masterArgs := {} }
  have h₀ : Fresh node 0 (db.systemInit.foldl (fun ap doc => systemInitCB doc ap)
      { ap with masterArgs := {} }).masterArgs := by
    rw [hm]
    exact ⟨List.nodup_nil, nofun, rfl⟩
  have h₁ := h₀.foldl_slaveInitCB hn db.slave
  have h₂ : Linked (db.slave.zipIdx.foldl (fun ap x => slaveInitCB (node x.2) x.1 ap)
      (db.systemInit.foldl (fun ap doc => systemInitCB doc ap)
        { ap with masterArgs := {} })).masterArgs := by
    intro o ho
    rw [h₁.empty] at ho
    cases ho
  have ⟨hl, hs⟩ := h₂.foldl_objInitCB db.obj
  refine ⟨hl, nofun, ?_⟩
  change (nodes (initMasterFromDB node db { ap with masterArgs := {} }).masterArgs.slaveQueue).Nodup
  simp only [initMasterFromDB]
  rw [hs]
  exact h₁.nodup

theorem AllocStep.guarded (h : Sound s) (e : AllocStep s l s') (hp : Pointed s') :
    Guarded s l := by
  have e := e.left
  cases l
  case slaveLoad => trivial
  case request   => trivial
  case objManager ack tvSec =>
    intro i x hm
    simp only [Step, exec, objManagerThread, hm, Option.bind_eq_bind, Option.bind_eq_some_iff] at e
    obtain ⟨o, ho, e⟩ := e
    cases e
    have hl := (List.getElem?_eq_some_iff.mp ho).choose
    exact hp.slave (place (some x) o).obj (List.mem_set hl _) x.1 rfl
  case rest i =>
    intro t ht hi
    exact ⟨fun buf hh => Step.unused h.nodup ht hi hh e hp,
      fun malloc o hh => Step.anchored ht hi hh e hp⟩

-- The pointers are good in all states of exactly those runs in which the two queues are changed
-- under the guards above.
theorem pointed_iff_guarded {node : Nat → Addr} (hn : node.Injective) {db : DbParams}
    {ap : AiotcParams} {tr : List (Threads × Label)} (r : Run AllocStep (init node db ap) tr s) :
    Run.Always Pointed tr s ↔ Run.Meets Guarded tr :=
  r.always_iff_meets (fun _ _ _ h hg e => AllocStep.sound h hg e) (fun _ h => h.linked.pointing)
    (fun _ _ _ h e hp => AllocStep.guarded h e hp) (init_sound hn)

section

def slaveAp : AiotcParams where
  configArgs := Slave.cfg

-- A camera that names the slave of `Polled.slaveText`.
def onSlave : Text :=
  some (.object [("id", .number 5), ("name", .string "gate"), ("type", .string "camera"),
    ("data", .object [("subtype", .string "rtsp")]),
    ("slave", .object [("ip", .string "10.0.0.7")])])

def added : List Label :=
  [.request (.slaveAdd Polled.slaveText true (some 8)), .rest 0, .rest 0,
    .request (.objAdd onSlave {}), .rest 1, .rest 1, .rest 1, .rest 1]

theorem run_alloc {tr : List (Threads × Label)} {s₁ s₂ : Threads} (r : Run Step s₁ tr s₂)
    (h : Run.Always (fun s => (nodes s.slaveQueue).Nodup) tr s₂) : Run AllocStep s₁ tr s₂ := by
  induction r
  case refl => exact .refl
  case step e r hi =>
    obtain ⟨-, h⟩ := Run.always_cons.mp h
    exact .step ⟨e, h.head r⟩ (hi h)

-- The object of `onSlave` gets its slave from the queue.
theorem pointed_iff_guarded_witness :
    ∃ tr s, Run AllocStep (init id {} slaveAp) tr s ∧ Run.Meets Guarded tr ∧
      s.mobjQueue.map ObjParam.slave = [some 8] := by
  have r := run_alloc (Run.of_partialTrace exec added (init id {} slaveAp) rfl) (by
    unfold Run.Always
    decide)
  refine ⟨_, _, r, (pointed_iff_guarded Function.injective_id r).mp ?_, rfl⟩
  apply Run.Always.mono (P := fun s => ∀ o ∈ s.mobjQueue, o.slave.any (· ∈ nodes s.slaveQueue))
  case h =>
    unfold Run.Always
    decide
  case hi =>
    refine fun s hs => ⟨fun o ho a ha => ?_, fun o ho _ hn => ?_⟩
    · have hm := hs o ho
      rw [ha] at hm
      exact of_decide_eq_true hm
    · simpa [hn] using hs o ho

-- The slave is deleted after that.
theorem not_pointed :
    ¬∀ (node : Nat → Addr) (db : DbParams) (ap : AiotcParams) (tr : List (Threads × Label))
      (s : Threads), node.Injective → Run AllocStep (init node db ap) tr s → Pointed s := by
  intro h
  have r := Run.of_partialTrace exec
    (added ++ [.request (.slaveDel Polled.slaveText), .rest 2, .rest 2]) (init id {} slaveAp) rfl
  have r := run_alloc r (by
    unfold Run.Always
    decide)
  have hp := (h _ _ _ _ _ Function.injective_id r).slave _ List.mem_cons_self 8 rfl
  cases hp

end

end Threads

end Master
