import Aiotc.Master.Cluster
import Aiotc.Master.Poll
import Aiotc.Slave.ObjIds

-- The task settings of an object, at the master and at the slave it is attached to.

open Queue

namespace Command

variable {cmd : Command} {buf : Text} {f : TaskParams → TaskParams}

theorem rest_eq (h : cmd.setting buf = some f) (malloc : ObjMalloc) (ap : AiotcParams) :
    (Slave.rest cmd.url buf malloc ap).1 = Slave.requestSetting f buf ap := by
  cases cmd
  case previewStart =>
    simp only [setting, bind, Option.bind_eq_some_iff, Option.guard_eq_some', pure,
      Option.some.injEq] at h
    obtain ⟨type, ht, _, hi, rfl⟩ := h
    simp [Slave.rest, url, Slave.requestPreviewStart, ht, hi]
  all_goals
    cases h
    rfl

-- The settings after a command are determined by those before it.
theorem settings_congr (h : cmd.setting buf = some f) {t t' : TaskParams}
    (ht : t.settings = t'.settings) : (f t).settings = (f t').settings := by
  cases cmd
  case previewStart =>
    simp only [setting, bind, Option.bind_eq_some_iff, Option.guard_eq_some', pure,
      Option.some.injEq] at h
    obtain ⟨type, _, _, _, rfl⟩ := h
    simp_all [TaskParams.settings]
  all_goals
    cases h
    simp_all [TaskParams.settings]

-- A command is either ignored or `requestObj` with its setting.
theorem request_cases {s s' : Master.State} {posts : List Post}
    (h : cmd.request buf s = some (s', posts)) :
    (cmd.setting buf = none ∧ s' = s ∧ posts = []) ∨
    ∃ f s'', cmd.setting buf = some f ∧ s'.ap = s''.ap ∧
      Master.requestObj cmd.url buf (fun o => { o with task := f o.task }) s =
        some (s'', posts) := by
  cases cmd
  case previewStart =>
    simp only [request, Master.masterRequestPreviewStart] at h
    cases ht : getStrValFromJson buf ["type"]
    case none =>
      rw [ht] at h
      cases h
      exact .inl ⟨by simp [setting, ht], rfl, rfl⟩
    case some type =>
      rw [ht] at h
      by_cases hi : getIntValFromJson buf ["id"] < 0
      case pos =>
        simp only [hi, if_true] at h
        cases h
        exact .inl ⟨by simp [setting, ht, hi], rfl, rfl⟩
      case neg =>
        simp only [hi, if_false, Master.requestSetting, bind, Option.bind_eq_some_iff] at h
        obtain ⟨⟨s'', _⟩, hr, ⟨⟩⟩ := h
        refine .inr ⟨fun t => { t with preview := strncpy 32 type }, s'', ?_, rfl, hr⟩
        simp [setting, ht, hi]
  all_goals
    obtain ⟨⟨s'', _⟩, hr, ⟨⟩⟩ := Option.bind_eq_some_iff.mp h
    exact .inr ⟨_, s'', rfl, rfl, hr⟩

end Command

namespace Master

variable {sq : SlaveQueue} {s : Ptr} {p : SlaveParam}

-- Every slave that can be found in the first queue is found in the second, under its address.
def Follows (sq sq' : SlaveQueue) : Prop :=
  ∀ s p, slaveAt sq s = some p → ∃ p', slaveAt sq' s = some p' ∧ p'.endpoint = p.endpoint

theorem Follows.refl (sq : SlaveQueue) : Follows sq sq :=
  fun _ p h => ⟨p, h, rfl⟩

theorem Follows.trans {sq₁ sq₂ sq₃ : SlaveQueue} (h₁ : Follows sq₁ sq₂) (h₂ : Follows sq₂ sq₃) :
    Follows sq₁ sq₃ := by
  intro s p h
  have ⟨p₂, h, he⟩ := h₁ s p h
  have ⟨p₃, h, he'⟩ := h₂ s p₂ h
  exact ⟨p₃, h, he'.trans he⟩

theorem slaveAt_some_iff {a : Addr} :
    slaveAt sq (some a) = some p ↔ ∃ x, sq.find? (·.1 = a) = some x ∧ x.2 = p := by
  simp [slaveAt, Option.bind_eq_some_iff]

theorem follows_append (ys : SlaveQueue) : Follows sq (sq ++ ys) := by
  intro s p h
  cases s
  case none => simp [slaveAt] at h
  case some a =>
    have ⟨x, hx, hp⟩ := slaveAt_some_iff.mp h
    exact ⟨p, slaveAt_some_iff.mpr ⟨x, searchFromQueue_append hx, hp⟩, rfl⟩

theorem follows_updateSlave {a : Addr} {f : SlaveParam → SlaveParam}
    (h : ∀ p, slaveAt sq (some a) = some p → (f p).endpoint = p.endpoint) :
    Follows sq (updateSlave a f sq) := by
  intro s p hs
  cases s
  case none => simp [slaveAt] at hs
  case some b =>
    have ⟨x, hx, hp⟩ := slaveAt_some_iff.mp hs
    by_cases hb : a = b
    case pos =>
      subst hb
      have hm := searchFromQueue_modifyFound_self (fun x => x.1 = a) (fun x => (x.1, f x.2)) sq
        fun _ => id
      refine ⟨f p, slaveAt_some_iff.mpr ⟨_, hm.trans (congrArg _ hx), ?_⟩, h p hs⟩
      simp [hp]
    case neg =>
      have hm := searchFromQueue_modifyFound (fun x => x.1 = a) (fun x => x.1 = b)
        (fun x => (x.1, f x.2)) sq (fun _ => rfl) (by simp_all)
      exact ⟨p, slaveAt_some_iff.mpr ⟨x, hm.trans hx, hp⟩, rfl⟩

theorem detachObjSlave_cases {slaveIp : CStr} {o o' : ObjParam}
    (h : detachObjSlave sq slaveIp o = some o') : o' = o ∨ o' = { o with attachSlave := 0 } := by
  simp only [detachObjSlave] at h
  split at h
  case isFalse =>
    cases h
    exact .inl rfl
  case isTrue =>
    obtain ⟨p, -, h⟩ := Option.bind_eq_some_iff.mp h
    split at h <;> cases h
    · exact .inr rfl
    · exact .inl rfl

theorem addSlave_cases (buf : Text) (arg : Bool) (node : Ptr) (mp : MasterParams) :
    (addSlave buf arg node mp).mobjQueue = mp.mobjQueue ∧
      ∃ ys, (addSlave buf arg node mp).slaveQueue = mp.slaveQueue ++ ys := by
  have hn : ∃ ys, mp.slaveQueue = mp.slaveQueue ++ ys := ⟨[], by simp⟩
  simp only [addSlave]
  cases newSlave buf <;> cases node <;> cases arg
  case some.some.true p a =>
    simp only [if_true, true_and]
    rcases putToShmQueue_cases (a, p) 1000 true mp.slaveQueue with ⟨-, h⟩ | ⟨-, h⟩
    · exact ⟨[(a, p)], by rw [h]⟩
    · rwa [h]
  all_goals exact ⟨rfl, hn⟩

end Master

namespace Cluster

variable {c c' : Cluster}

-- The slave of `o` has it, with the settings that the master has for it.
def InSync (slaves : Endpoint → AiotcParams) (sq : SlaveQueue) (o : ObjParam) : Prop :=
  ∃ p o', Master.slaveAt sq o.slave = some p ∧
    searchFromQueue (conditionByObjId o.id) (slaves p.endpoint).objQueue = some o' ∧
    o'.task.settings = o.task.settings

def Synced (c : Cluster) : Prop :=
  ∀ o ∈ c.mobjQueue, o.attachSlave ≠ 0 → InSync c.slaves c.slaveQueue o

-- The slaves lose no object and change none.
def Keeps (slaves slaves' : Endpoint → AiotcParams) : Prop :=
  ∀ e, ∃ ys, (slaves' e).objQueue = (slaves e).objQueue ++ ys

theorem Keeps.refl (slaves : Endpoint → AiotcParams) : Keeps slaves slaves :=
  fun _ => ⟨[], by simp⟩

theorem Keeps.trans {s₁ s₂ s₃ : Endpoint → AiotcParams} (h₁ : Keeps s₁ s₂) (h₂ : Keeps s₂ s₃) :
    Keeps s₁ s₃ := by
  intro e
  have ⟨ys, h⟩ := h₁ e
  have ⟨zs, h'⟩ := h₂ e
  exact ⟨ys ++ zs, by rw [h', h, List.append_assoc]⟩

theorem keeps_update {slaves : Endpoint → AiotcParams} {e : Endpoint} {ap : AiotcParams}
    (h : ∃ ys, ap.objQueue = (slaves e).objQueue ++ ys) :
    Keeps slaves (Function.update slaves e ap) := by
  intro e'
  by_cases he : e' = e
  case pos => subst he; simpa using h
  case neg => exact ⟨[], by simp [Function.update_of_ne he]⟩

theorem InSync.mono {slaves slaves' : Endpoint → AiotcParams} {sq sq' : SlaveQueue} {o : ObjParam}
    (h : InSync slaves sq o) (hk : Keeps slaves slaves') (hf : Master.Follows sq sq') :
    InSync slaves' sq' o := by
  have ⟨p, o', hp, ho, hs⟩ := h
  have ⟨p', hp', he⟩ := hf _ _ hp
  have ⟨ys, hy⟩ := hk p.endpoint
  refine ⟨p', o', hp', ?_, hs⟩
  rw [he, hy]
  exact searchFromQueue_append ho

-- The rule for all steps but the commands.
theorem Synced.frame (h : Synced c) (hf : Master.Follows c.slaveQueue c'.slaveQueue)
    (hk : Keeps c.slaves c'.slaves)
    (hm : ∀ o ∈ c'.mobjQueue, o ∈ c.mobjQueue ∨ o.attachSlave = 0 ∨
      InSync c'.slaves c'.slaveQueue o) : Synced c' := by
  intro o ho ha
  rcases hm o ho with ho | ho | ho
  · exact (h o ho ha).mono hk hf
  · exact absurd ho ha
  · exact ho

-- What identifies an object at the master and its slaves.
def key (o : ObjParam) : Int × Text :=
  (o.id, o.originaldata)

structure WellKeyed (q : List ObjParam) : Prop where
  nodup : (q.map ObjParam.id).Nodup
  text  : ∀ o ∈ q, Complete o.originaldata ∧ o.id = getIntValFromJson o.originaldata ["id"]

theorem ids_of_keys {q q' : List ObjParam} (hk : q'.map key = q.map key) :
    q'.map ObjParam.id = q.map ObjParam.id := by
  have h := congrArg (List.map Prod.fst) hk
  rwa [List.map_map, List.map_map] at h

-- What is true of the keys is true of the objects.
theorem forall_of_keys {P : Int → Text → Prop} {q q' : List ObjParam}
    (hk : q'.map key = q.map key) (h : ∀ o ∈ q, P o.id o.originaldata) :
    ∀ o ∈ q', P o.id o.originaldata := by
  intro o ho
  have hm : key o ∈ q.map key := hk ▸ List.mem_map_of_mem ho
  have ⟨o', ho', he⟩ := List.mem_map.mp hm
  have ⟨hid, ht⟩ := Prod.mk.inj he
  exact hid ▸ ht ▸ h o' ho'

theorem WellKeyed.of_keys {q q' : List ObjParam} (h : WellKeyed q) (hk : q'.map key = q.map key) :
    WellKeyed q' :=
  ⟨ids_of_keys hk ▸ h.nodup, forall_of_keys
    (P := fun id buf => Complete buf ∧ id = getIntValFromJson buf ["id"]) hk h.text⟩

structure Inv (c : Cluster) : Prop where
  synced : Synced c
  keyed  : WellKeyed c.mobjQueue

section

variable {buf : Text} {malloc : ObjMalloc} {ap : AiotcParams}

theorem requestSystemInit_objQueue (buf : Text) (malloc : Bool) (ap : AiotcParams) :
    (Slave.requestSystemInit buf malloc ap).objQueue = ap.objQueue := by
  simp only [Slave.requestSystemInit]
  split <;> split <;> rfl

theorem addObj_append (buf : Text) (malloc : ObjMalloc) (max : Int) (ap : AiotcParams)
    (q : List ObjParam) : ∃ ys, addObj buf malloc max ap q = q ++ ys := by
  rcases addObj_cases buf malloc max ap q with ⟨-, -, -, o, -, h⟩ | ⟨-, h⟩
  · exact ⟨[o], h⟩
  · exact ⟨[], by simp [h]⟩

end

-- The step lemmas.

theorem slaveAdd_effect {buf : Text} {arg : Bool} {node : Ptr}
    (e : Step c (.slaveAdd buf arg node) c') :
    c'.slaves = c.slaves ∧ c'.mobjQueue = c.mobjQueue ∧
      ∃ ys, c'.slaveQueue = c.slaveQueue ++ ys := by
  cases e
  refine ⟨rfl, ?_⟩
  simp only [Master.masterRequestSlaveAdd, mobjQueue, slaveQueue]
  split
  case h_1 => exact ⟨rfl, [], by simp⟩
  case h_2 => exact Master.addSlave_cases buf arg node c.master.ap.masterArgs

theorem slaveAdd_inv {buf : Text} {arg : Bool} {node : Ptr} (h : Inv c)
    (e : Step c (.slaveAdd buf arg node) c') : Inv c' := by
  have ⟨hs, hm, ys, hq⟩ := slaveAdd_effect e
  refine ⟨h.synced.frame ?_ (hs ▸ .refl _) fun o ho => .inl (hm ▸ ho), hm ▸ h.keyed⟩
  exact hq ▸ Master.follows_append ys

theorem restart_inv {e : Endpoint} (h : Inv c) (e : Step c (.restart e) c') : Inv c' := by
  cases e
  exact ⟨h.synced.frame (.refl _) (keeps_update ⟨[], by simp [Slave.restProcess]⟩)
    fun _ ho => .inl ho, h.keyed⟩

theorem objAdd_effect {buf : Text} {malloc : ObjMalloc} (e : Step c (.objAdd buf malloc) c') :
    c'.slaves = c.slaves ∧ c'.slaveQueue = c.slaveQueue ∧ (c'.mobjQueue = c.mobjQueue ∨
      Complete buf ∧ malloc.Ok ∧ c.mobjQueue.length < c.master.ap.configArgs.masterObjMax ∧
      ∃ o, NewObj buf c.master.ap o ∧ c'.mobjQueue = c.mobjQueue ++ [o]) := by
  cases e
  refine ⟨rfl, ?_⟩
  simp only [Master.masterRequestObjAdd]
  split
  case isTrue => exact ⟨rfl, .inl rfl⟩
  case isFalse =>
    refine ⟨rfl, ?_⟩
    rcases addObj_cases buf malloc c.master.ap.configArgs.masterObjMax c.master.ap c.mobjQueue with
      ha | ⟨-, hq⟩
    · exact .inr ha
    · exact .inl hq

-- The object that an /obj/add at the master brings is not attached yet.
theorem objAdd_inv {buf : Text} {malloc : ObjMalloc} (h : Inv c)
    (hf : Complete buf → malloc.Ok →
      c.mobjQueue.length < c.master.ap.configArgs.masterObjMax →
      getIntValFromJson buf ["id"] ∉ c.mobjQueue.map ObjParam.id)
    (e : Step c (.objAdd buf malloc) c') : Inv c' := by
  have ⟨hs, hq, hm⟩ := objAdd_effect e
  have hk : Keeps c.slaves c'.slaves := hs ▸ .refl _
  have hw : Master.Follows c.slaveQueue c'.slaveQueue := hq ▸ .refl _
  rcases hm with hm | ⟨hc, ha, hl, o, ho, hm⟩
  case inl => exact ⟨h.synced.frame hw hk fun o ho => .inl (hm ▸ ho), hm ▸ h.keyed⟩
  case inr =>
    refine ⟨h.synced.frame hw hk fun o' ho' => ?_, ?_, fun o' ho' => ?_⟩
    case refine_1 =>
      rcases List.mem_append.mp (hm ▸ ho') with ho' | ho'
      · exact .inl ho'
      · exact .inr (.inl (List.mem_singleton.mp ho' ▸ ho.attachSlave))
    case refine_2 =>
      have hn := hf hc ha hl
      have hd := h.keyed.nodup
      simp only [hm, List.map_append, List.map_cons, List.map_nil, ho.id, List.nodup_append]
      grind
    case refine_3 =>
      rcases List.mem_append.mp (hm ▸ ho') with ho' | ho'
      · exact h.keyed.text o' ho'
      · rw [List.mem_singleton.mp ho', ho.originaldata]
        exact ⟨hc, ho.id⟩

-- A slave that is found offline loses its objects; they stay where they are in the queue.
theorem detachSlave_spec {p : SlaveParam} {mp mp' : MasterParams}
    (h : Master.detachSlave p mp = some mp') :
    mp'.slaveQueue = mp.slaveQueue ∧ mp'.mobjQueue.map key = mp.mobjQueue.map key ∧
      ∀ o ∈ mp'.mobjQueue, o ∈ mp.mobjQueue ∨ o.attachSlave = 0 := by
  obtain ⟨q, hq, ⟨⟩⟩ := Option.bind_eq_some_iff.mp h
  refine ⟨rfl, ?_⟩
  clear h
  generalize mp.mobjQueue = q₀ at hq
  induction q₀ generalizing q
  case nil =>
    cases hq
    simp
  case cons o q₀ hi =>
    simp only [List.mapM_cons, bind, Option.bind_eq_some_iff, pure, Option.some.injEq] at hq
    obtain ⟨o', ho', q, hq, rfl⟩ := hq
    have ⟨hk, hm⟩ := hi q hq
    have hd : key o' = key o ∧ (o' = o ∨ o'.attachSlave = 0) := by
      cases Master.detachObjSlave_cases ho'
      case inl he => exact ⟨he ▸ rfl, .inl he⟩
      case inr he => exact ⟨he ▸ rfl, .inr (he ▸ rfl)⟩
    refine ⟨by simp [hk, hd.left], fun x hx => ?_⟩
    rcases List.mem_cons.mp hx with rfl | hx
    · exact hd.right.imp_left fun h => List.mem_cons.mpr (.inl h)
    · exact (hm x hx).imp_left (List.mem_cons_of_mem _)

theorem deliver_keeps (malloc : ObjMalloc) {p : Post} (h : p.url = .objAdd) :
    Keeps c.slaves (deliver malloc p c).1.slaves := by
  apply keeps_update
  simp only [h]
  exact addObj_append ..

-- What the master posts to a slave because of a poll leaves its objects alone.
theorem deliver_objQueue (malloc : ObjMalloc) {p : Post}
    (h : p.url = .systemInit ∨ p.url = .systemSlave) (e : Endpoint) :
    ((deliver malloc p c).1.slaves e).objQueue = (c.slaves e).objQueue := by
  by_cases he : e = p.endpoint
  case neg => simp only [deliver, Function.update_of_ne he]
  case pos =>
    subst he
    simp only [deliver, Function.update_self]
    cases h
    case inl h => exact h ▸ requestSystemInit_objQueue ..
    case inr h => exact h ▸ rfl

theorem slaveLoad_endpoint (ack : Option Text) (tvSec : Int) (sysOrgData : Option Text)
    (p : SlaveParam) : (Master.slaveLoad ack tvSec sysOrgData p).param.endpoint = p.endpoint := by
  simp only [Master.slaveLoad]
  split
  · rfl
  · split <;> rfl

theorem status_spec (up : Bool) (malloc : ObjMalloc) (p : SlaveParam) :
    (status up malloc p c).1.master = c.master ∧
      ∀ e, ((status up malloc p c).1.slaves e).objQueue = (c.slaves e).objQueue := by
  cases up
  · exact ⟨rfl, fun _ => rfl⟩
  · exact ⟨rfl, deliver_objQueue malloc (.inr rfl)⟩

theorem poll_effect {a : Addr} {tvSec : Int} {up : Bool} {malloc : ObjMalloc}
    (e : Step c (.poll a tvSec up malloc) c') :
    Master.Follows c.slaveQueue c'.slaveQueue ∧
      (∀ e, (c'.slaves e).objQueue = (c.slaves e).objQueue) ∧
      c'.mobjQueue.map key = c.mobjQueue.map key ∧
      ∀ o ∈ c'.mobjQueue, o ∈ c.mobjQueue ∨ o.attachSlave = 0 := by
  have ⟨p, hp, e⟩ := Option.bind_eq_some_iff.mp e
  have ⟨hc, hk⟩ := status_spec (c := c) up malloc p
  generalize status up malloc p c = x at e hc hk
  have ⟨⟨m, slaves⟩, ack⟩ := x
  cases hc
  have he := slaveLoad_endpoint ack tvSec c.master.ap.sysOrgData p
  obtain ⟨mp, hmp, ⟨⟩⟩ := Option.bind_eq_some_iff.mp e
  generalize Master.slaveLoad ack tvSec c.master.ap.sysOrgData p = r at *
  have ⟨hq, hkey, hm⟩ : mp.slaveQueue = c.slaveQueue ∧ mp.mobjQueue.map key = c.mobjQueue.map key ∧
      ∀ o ∈ mp.mobjQueue, o ∈ c.mobjQueue ∨ o.attachSlave = 0 := by
    split at hmp
    · exact detachSlave_spec hmp
    · cases hmp
      exact ⟨rfl, rfl, fun _ ho => .inl ho⟩
  have hw : Master.Follows c.slaveQueue
      (Master.updateSlave a (fun _ => r.param) mp.slaveQueue) := by
    refine hq ▸ Master.follows_updateSlave fun p' hp' => ?_
    cases Option.some.inj (hp.symm.trans (hq ▸ hp'))
    exact he
  split
  case h_2 => exact ⟨hw, hk, hkey, hm⟩
  case h_1 =>
    split
    case isFalse => exact ⟨hw, hk, hkey, hm⟩
    case isTrue  =>
      exact ⟨hw, fun e => (deliver_objQueue malloc (.inl rfl) e).trans (hk e), hkey, hm⟩

theorem poll_inv {a : Addr} {tvSec : Int} {up : Bool} {malloc : ObjMalloc} (h : Inv c)
    (e : Step c (.poll a tvSec up malloc) c') : Inv c' := by
  have ⟨hw, hs, hkey, hm⟩ := poll_effect e
  have hk : Keeps c.slaves c'.slaves := fun e => ⟨[], by simp [hs e]⟩
  exact ⟨h.synced.frame hw hk fun o ho => (hm o ho).imp_right .inl, h.keyed.of_keys hkey⟩

-- The slave to which a visit of `mobjManager` attaches the object.
def Target (tvSec : Int) (sq : SlaveQueue) (o : ObjParam) (p : SlaveParam) : Prop :=
  (o.attachSlave = 0 ∧ Master.slaveAt sq o.slave = some p ∧ Master.slaveIsNormal tvSec p = 1) ∨
  (o.slave = none ∧ ∃ x, Master.getLowestLoadSlave sq = some x ∧
    Master.slaveAt sq (some x.1) = some p)

-- The ways in which the placement of an object ends.
theorem mobjManager_cases {tvSec : Int} {sq : SlaveQueue} {o : ObjParam} {r : Master.Placed}
    (h : Master.mobjManager tvSec sq o = some r) :
    (r.redirect = false ∧ (r.obj = o ∨ r.obj = { o with slave := none } ∧ o.attachSlave = 0)) ∨
    (r.redirect = true ∧ ∃ a, r.obj = { o with slave := some a, attachSlave := 1 } ∧
      ∀ p, Master.slaveAt sq (some a) = some p → Target tvSec sq o p) := by
  simp only [Master.mobjManager, Master.place] at h
  split at h
  case isTrue hs =>
    have ⟨p, hp, h⟩ := Option.bind_eq_some_iff.mp h
    have ⟨a, ha⟩ := Option.ne_none_iff_exists'.mp hs.left
    split at h
    case isTrue hn =>
      cases h
      refine .inr ⟨rfl, a, by simp [← ha], fun p' hp' => .inl ⟨hs.right, ha ▸ hp', ?_⟩⟩
      cases Option.some.inj ((ha ▸ hp).symm.trans hp')
      exact hn
    case isFalse =>
      split at h <;> cases h
      · exact .inl ⟨rfl, .inr ⟨rfl, hs.right⟩⟩
      · exact .inl ⟨rfl, .inl rfl⟩
  case isFalse =>
    split at h
    case isTrue hs =>
      split at h <;> cases h
      case h_1 a p hl => exact .inr ⟨rfl, a, rfl, fun p' hp' => .inr ⟨hs, _, hl, hp'⟩⟩
      case h_2 => exact .inl ⟨rfl, .inl rfl⟩
    case isFalse =>
      cases h
      exact .inl ⟨rfl, .inl rfl⟩

theorem redirect_spec {up : Bool} {malloc : ObjMalloc} {o : ObjParam}
    (h : redirect up malloc o c = some c') :
    ∃ p, Master.slaveAt c.slaveQueue o.slave = some p ∧ c'.mobjQueue = c.mobjQueue ∧
      Master.Follows c.slaveQueue c'.slaveQueue ∧ Keeps c.slaves c'.slaves ∧
      (up = true → (c'.slaves p.endpoint).objQueue = addObj (Master.redirectText o) malloc
        (c.slaves p.endpoint).configArgs.slaveObjMax (c.slaves p.endpoint)
        (c.slaves p.endpoint).objQueue) := by
  have ⟨a, ha, h⟩ := Option.bind_eq_some_iff.mp h
  have ⟨p, hp, h⟩ := Option.bind_eq_some_iff.mp h
  refine ⟨p, hp, ?_⟩
  split at h
  case h_1 ht =>
    cases h
    refine ⟨rfl, .refl _, .refl _, fun _ => ?_⟩
    rcases addObj_cases (Master.redirectText o) malloc (c.slaves p.endpoint).configArgs.slaveObjMax
      (c.slaves p.endpoint) (c.slaves p.endpoint).objQueue with ⟨hc, -⟩ | ⟨-, hq⟩
    · exact absurd (ht ▸ hc) not_complete_none
    · exact hq.symm
  case h_2 j ht =>
    cases up
    case false =>
      cases h
      exact ⟨rfl, .refl _, .refl _, by simp⟩
    case true =>
      cases h
      refine ⟨rfl, Master.follows_updateSlave fun _ _ => rfl,
        deliver_keeps malloc rfl, fun _ => ?_⟩
      simp only [updateMaster, Function.update_self, ht]
      rfl

-- A slave that is sent an object either holds it already, or takes it as its text has it.
def Arrives (c : Cluster) (up : Bool) (malloc : ObjMalloc) (o : ObjParam) (p : SlaveParam) : Prop :=
  match searchFromQueue (conditionByObjId o.id) (c.slaves p.endpoint).objQueue with
  | some o' => o'.task.settings = o.task.settings
  | none    => up = true ∧ malloc.Ok ∧
    (c.slaves p.endpoint).objQueue.length < (c.slaves p.endpoint).configArgs.slaveObjMax ∧
    (initObjTask.task o.originaldata {}).settings = o.task.settings

theorem map_set_of_key {q : List ObjParam} {i : Nat} {o o' : ObjParam} (ho : q[i]? = some o)
    (hk : key o' = key o) : (q.set i o').map key = q.map key := by
  refine List.ext_getElem? fun j => ?_
  simp only [List.getElem?_map, List.getElem?_set]
  grind

theorem Arrives.objQueue {up : Bool} {malloc : ObjMalloc} {o : ObjParam} {p : SlaveParam}
    {q : List ObjParam} (h : Arrives c up malloc o p) (ht : Complete o.originaldata)
    (hi : o.id = getIntValFromJson o.originaldata ["id"])
    (hk : ∃ ys, q = (c.slaves p.endpoint).objQueue ++ ys)
    (hq : up = true → q = addObj (Master.redirectText o) malloc
      (c.slaves p.endpoint).configArgs.slaveObjMax (c.slaves p.endpoint)
      (c.slaves p.endpoint).objQueue) :
    ∃ o', searchFromQueue (conditionByObjId o.id) q = some o' ∧
      o'.task.settings = o.task.settings := by
  simp only [Arrives] at h
  split at h
  case h_1 o' ho =>
    obtain ⟨ys, rfl⟩ := hk
    exact ⟨o', searchFromQueue_append ho, h⟩
  case h_2 ho =>
    have ⟨hu, hm, hl, hs⟩ := h
    rcases addObj_cases (Master.redirectText o) malloc (c.slaves p.endpoint).configArgs.slaveObjMax
      (c.slaves p.endpoint) (c.slaves p.endpoint).objQueue with ⟨-, -, -, n, hn, ha⟩ | ⟨hf, -⟩
    case inr => exact absurd ⟨complete_delObjJson.mpr ht, hm, hl⟩ hf
    case inl =>
      have hid : n.id = o.id := by
        rw [hn.id, Master.redirectText, getIntValFromJson_delObjJson (by decide), hi]
      refine ⟨n, ?_, ?_⟩
      · rw [hq hu, ha]
        exact searchFromQueue_snoc ho (by simp [conditionByObjId, hid])
      · rw [hn.task, Master.redirectText, initObjTask_task_delObjJson, hs]

-- Where the objects are placed, and what is stored of it in the database.
theorem manage_cases {i : Nat} {tvSec : Int} {up : Bool} {malloc : ObjMalloc}
    (e : Step c (.manage i tvSec up malloc) c') :
    ∃ o r c₁, c.mobjQueue[i]? = some o ∧ Master.mobjManager tvSec c.slaveQueue o = some r ∧
      c₁.slaves = c.slaves ∧ c₁.slaveQueue = c.slaveQueue ∧
      c₁.mobjQueue = c.mobjQueue.set i r.obj ∧
      (if r.redirect then redirect up malloc r.obj c₁ else some c₁) = some c' := by
  have ⟨o, ho, e⟩ := Option.bind_eq_some_iff.mp e
  have ⟨r, hr, e⟩ := Option.bind_eq_some_iff.mp e
  refine ⟨o, r, _, ho, hr, ?_, ?_, ?_, e⟩ <;> cases r.slaveIp <;> rfl

theorem manage_inv {i : Nat} {tvSec : Int} {up : Bool} {malloc : ObjMalloc} (h : Inv c)
    (ha : ∀ o p, c.mobjQueue[i]? = some o → Target tvSec c.slaveQueue o p →
      Arrives c up malloc o p)
    (e : Step c (.manage i tvSec up malloc) c') : Inv c' := by
  have ⟨o, r, c₁, ho, hr, hs, hq, hm, e⟩ := manage_cases e
  have hmem := List.mem_of_getElem? ho
  have ⟨ht, hid⟩ := h.keyed.text o hmem
  have hf : Master.Follows c.slaveQueue c₁.slaveQueue := hq ▸ .refl _
  have hk : Keeps c.slaves c₁.slaves := hs ▸ .refl _
  rcases mobjManager_cases hr with ⟨hd, hp⟩ | ⟨hd, a, hobj, htar⟩
  case inl =>
    rw [hd] at e
    cases e
    refine ⟨h.synced.frame hf hk fun o' ho' => ?_, ?_⟩
    case refine_1 =>
      rcases List.mem_or_eq_of_mem_set (hm ▸ ho') with ho' | rfl
      · exact .inl ho'
      · rcases hp with hp | ⟨hp, h₀⟩
        · exact .inl (hp ▸ hmem)
        · exact .inr (.inl (hp ▸ h₀))
    case refine_2 =>
      refine h.keyed.of_keys (hm ▸ map_set_of_key ho ?_)
      rcases hp with hp | ⟨hp, -⟩
      · rw [hp]
      · rw [hp]; rfl
  case inr =>
    rw [hd, hobj] at e
    have ⟨p, hp, hm', hf', hk', hq'⟩ := redirect_spec e
    have hr := ha o p ho (htar p (hq ▸ hp))
    have hq₁ := hr.objQueue ht hid (hk.trans hk' p.endpoint) fun hu => by rw [hq' hu, hs]; rfl
    have ⟨o', ho', hset⟩ := hq₁
    have ⟨p', hp', hpe⟩ := hf' _ _ hp
    refine ⟨h.synced.frame (hf.trans hf') (hk.trans hk') fun x hx => ?_, ?_⟩
    case refine_1 =>
      rcases List.mem_or_eq_of_mem_set (hm ▸ hm' ▸ hx) with hx | rfl
      · exact .inl hx
      · exact .inr (.inr ⟨p', o', hobj ▸ hp', by rw [hobj, hpe]; exact ho', hobj ▸ hset⟩)
    case refine_2 =>
      rw [hm', hm, hobj]
      exact h.keyed.of_keys (map_set_of_key ho rfl)

theorem requestObj_cases {url : Url} {buf : Text} {f : ObjParam → ObjParam} {s s' : Master.State}
    {posts : List Post} (h : Master.requestObj url buf f s = some (s', posts)) :
    (s' = s ∧ posts = []) ∨
    ∃ o, searchFromQueue (conditionByObjId (getIntValFromJson buf ["id"]))
        s.ap.masterArgs.mobjQueue = some o ∧
      s'.ap.masterArgs.slaveQueue = s.ap.masterArgs.slaveQueue ∧
      s'.ap.masterArgs.mobjQueue = modifyFound
        (conditionByObjId (getIntValFromJson buf ["id"])) f s.ap.masterArgs.mobjQueue ∧
      Master.httpPostSlave url buf s.ap.masterArgs.slaveQueue o = some posts := by
  simp only [Master.requestObj] at h
  split at h
  case h_1 =>
    cases h
    exact .inl ⟨rfl, rfl⟩
  case h_2 o ho =>
    obtain ⟨_, hp, ⟨⟩⟩ := Option.bind_eq_some_iff.mp h
    exact .inr ⟨o, ho, rfl, rfl, hp⟩

theorem httpPostSlave_cases {url : Url} {buf : Text} {sq : SlaveQueue} {o : ObjParam}
    {posts : List Post} (h : Master.httpPostSlave url buf sq o = some posts) :
    posts = [] ∧ (o.slave = none ∨ o.attachSlave = 0) ∨
    ∃ p, Master.slaveAt sq o.slave = some p ∧ posts = [⟨p.endpoint, url, buf⟩] := by
  simp only [Master.httpPostSlave] at h
  split at h
  case isTrue =>
    obtain ⟨p, hp, ⟨⟩⟩ := Option.bind_eq_some_iff.mp h
    exact .inr ⟨p, hp, rfl⟩
  case isFalse hn =>
    cases h
    exact .inl ⟨rfl, by grind⟩

-- A command changes an object at the master and, where a post arrives, at its slave.
def changeTask (f : TaskParams → TaskParams) (o : ObjParam) : ObjParam :=
  { o with task := f o.task }

theorem search_changeTask (f : TaskParams → TaskParams) (id : Int) (q : List ObjParam) :
    searchFromQueue (conditionByObjId id) (modifyFound (conditionByObjId id) (changeTask f) q) =
      (searchFromQueue (conditionByObjId id) q).map (changeTask f) :=
  searchFromQueue_modifyFound_self _ (changeTask f) q fun _ h => h

theorem search_changeTask_of_ne {i j : Int} (f : TaskParams → TaskParams) (q : List ObjParam)
    (h : i ≠ j) :
    searchFromQueue (conditionByObjId i) (modifyFound (conditionByObjId j) (changeTask f) q) =
      searchFromQueue (conditionByObjId i) q := by
  apply searchFromQueue_modifyFound _ _ (changeTask f) q (fun _ => rfl)
  intro x _ hx
  simp only [conditionByObjId, decide_eq_true_eq] at hx
  simp [conditionByObjId, hx, h.symm]

theorem requestSetting_objQueue (f : TaskParams → TaskParams) (buf : Text) (ap : AiotcParams) :
    (Slave.requestSetting f buf ap).objQueue = modifyFound
      (conditionByObjId (getIntValFromJson buf ["id"])) (changeTask f) ap.objQueue :=
  rfl

theorem command_cases {cmd : Command} {buf : Text} {up : Bool}
    (e : Step c (.command cmd buf up) c') :
    (c'.master.ap = c.master.ap ∧ c'.slaves = c.slaves) ∨ ∃ f o, cmd.setting buf = some f ∧
      searchFromQueue (conditionByObjId (getIntValFromJson buf ["id"])) c.mobjQueue = some o ∧
      c'.slaveQueue = c.slaveQueue ∧
      c'.mobjQueue = modifyFound (conditionByObjId (getIntValFromJson buf ["id"])) (changeTask f)
        c.mobjQueue ∧
      (c'.slaves = c.slaves ∧ (up = false ∨ o.slave = none ∨ o.attachSlave = 0) ∨
        ∃ p, Master.slaveAt c.slaveQueue o.slave = some p ∧ c'.slaves = Function.update c.slaves
          p.endpoint (Slave.requestSetting f buf (c.slaves p.endpoint))) := by
  obtain ⟨⟨m, posts⟩, hr, ⟨⟩⟩ := Option.bind_eq_some_iff.mp e
  rcases cmd.request_cases hr with ⟨-, rfl, rfl⟩ | ⟨f, s, hf, hap, hs⟩
  case inl => exact .inl (by cases up <;> exact ⟨rfl, rfl⟩)
  case inr =>
    rcases requestObj_cases hs with ⟨rfl, rfl⟩ | ⟨o, ho, hsq, hmq, hp⟩
    case inl => exact .inl (by cases up <;> exact ⟨hap, rfl⟩)
    case inr =>
      have hm (slaves : Endpoint → AiotcParams) : slaveQueue ⟨m, slaves⟩ = c.slaveQueue ∧
          mobjQueue ⟨m, slaves⟩ = modifyFound
            (conditionByObjId (getIntValFromJson buf ["id"])) (changeTask f) c.mobjQueue := by
        simp only [slaveQueue, mobjQueue, hap, hsq, hmq, true_and]
        rfl
      rcases httpPostSlave_cases hp with ⟨rfl, hn⟩ | ⟨p, hsl, rfl⟩ <;> cases up
      case inl.false => exact .inr ⟨f, o, hf, ho, (hm _).left, (hm _).right, .inl ⟨rfl, .inl rfl⟩⟩
      case inl.true  => exact .inr ⟨f, o, hf, ho, (hm _).left, (hm _).right, .inl ⟨rfl, .inr hn⟩⟩
      case inr.false => exact .inr ⟨f, o, hf, ho, (hm _).left, (hm _).right, .inl ⟨rfl, .inl rfl⟩⟩
      case inr.true  =>
        refine .inr ⟨f, o, hf, ho, (hm _).left, (hm _).right, .inr ⟨p, hsl, ?_⟩⟩
        simp [deliver, cmd.rest_eq hf]

-- A command for an attached object changes nothing, or reaches the slave.
def Reached (c : Cluster) (cmd : Command) (buf : Text) (up : Bool) : Prop :=
  ∀ f o, cmd.setting buf = some f →
    searchFromQueue (conditionByObjId (getIntValFromJson buf ["id"])) c.mobjQueue = some o →
    o.attachSlave ≠ 0 → up = true ∨ (f o.task).settings = o.task.settings

theorem command_inv {cmd : Command} {buf : Text} {up : Bool} (h : Inv c)
    (hr : Reached c cmd buf up) (e : Step c (.command cmd buf up) c') : Inv c' := by
  rcases command_cases e with ⟨ha, hs⟩ | ⟨f, o, hf, ho, hsq, hmq, hs⟩
  case inl =>
    have hq : c'.mobjQueue = c.mobjQueue := congrArg (·.masterArgs.mobjQueue) ha
    have hw : c'.slaveQueue = c.slaveQueue := congrArg (·.masterArgs.slaveQueue) ha
    exact ⟨h.synced.frame (hw ▸ .refl _) (hs ▸ .refl _) fun o ho => .inl (hq ▸ ho), hq ▸ h.keyed⟩
  case inr =>
    refine ⟨fun x hx hat => ?_, h.keyed.of_keys (hmq ▸ map_modifyFound fun _ => rfl)⟩
    have ⟨hom, hoid⟩ := searchFromQueue_some ho
    rw [hmq] at hx
    rcases mem_modifyFound (pairwise_conditionByObjId h.keyed.nodup _) hx with
      ⟨hx, hn⟩ | ⟨o', ho', rfl⟩
    case inl =>
      have ⟨p, y, hp, hy, hset⟩ := h.synced x hx hat
      refine ⟨p, y, hsq ▸ hp, ?_, hset⟩
      rcases hs with ⟨hs, -⟩ | ⟨p', -, hs⟩
      · rwa [hs]
      · rw [hs]
        by_cases he : p.endpoint = p'.endpoint
        case neg => rwa [Function.update_of_ne he]
        case pos =>
          rwa [he, Function.update_self, ← he, requestSetting_objQueue, search_changeTask_of_ne]
          simpa [conditionByObjId] using hn
    case inr =>
      cases Option.some.inj (ho.symm.trans ho')
      have ⟨p, y, hp, hy, hset⟩ := h.synced o hom hat
      rcases hs with ⟨hs, hno⟩ | ⟨p', hp', hs⟩
      case inl =>
        refine ⟨p, y, hsq ▸ hp, hs ▸ hy, ?_⟩
        rcases hno with rfl | hno | hno
        · exact hset.trans ((hr f o hf ho hat).resolve_left (by simp)).symm
        · simp [hno, Master.slaveAt] at hp
        · exact absurd hno hat
      case inr =>
        cases Option.some.inj (hp.symm.trans hp')
        refine ⟨p, changeTask f y, hsq ▸ hp, ?_, cmd.settings_congr hf hset⟩
        simp only [conditionByObjId, decide_eq_true_eq] at hoid
        rw [hs, Function.update_self, requestSetting_objQueue, ← hoid]
        exact (search_changeTask f o.id _).trans (congrArg (Option.map (changeTask f)) hy)

-- An /obj/add at the master that is not refused brings a new id, no command for an attached
-- object fails to reach the slave, and where an object is attached its slave has it or takes it.
def Carried (c : Cluster) : Label → Prop
  | .objAdd buf malloc        => Complete buf → malloc.Ok →
    c.mobjQueue.length < c.master.ap.configArgs.masterObjMax →
    getIntValFromJson buf ["id"] ∉ c.mobjQueue.map ObjParam.id
  | .command cmd buf up       => Reached c cmd buf up
  | .manage i tvSec up malloc => ∀ o p, c.mobjQueue[i]? = some o → Target tvSec c.slaveQueue o p →
    Arrives c up malloc o p
  | _                         => True

theorem Step.inv {l : Label} (h : Inv c) (hc : Carried c l) (e : Step c l c') : Inv c' := by
  cases l
  case slaveAdd => exact slaveAdd_inv h e
  case objAdd   => exact objAdd_inv h hc e
  case command  => exact command_inv h hc e
  case manage   => exact manage_inv h hc e
  case poll     => exact poll_inv h e
  case restart  => exact restart_inv h e

section

theorem inSync_iff {slaves : Endpoint → AiotcParams} {sq : SlaveQueue} {o : ObjParam} :
    InSync slaves sq o ↔ ((Master.slaveAt sq o.slave).bind fun p =>
      (searchFromQueue (conditionByObjId o.id) (slaves p.endpoint).objQueue).map
        (·.task.settings)) = some o.task.settings := by
  simp [InSync, Option.bind_eq_some_iff]

instance {slaves : Endpoint → AiotcParams} {sq : SlaveQueue} {o : ObjParam} :
    Decidable (InSync slaves sq o) :=
  decidable_of_iff _ inSync_iff.symm

instance : Decidable (Synced c) :=
  inferInstanceAs (Decidable (∀ o ∈ c.mobjQueue, _ → _))

-- A master that knows how to initialise its slaves, and slaves that hold nothing.
def start : Cluster where
  master := { ap := {
    configArgs := ⟨1, 100, 100, 1000, 100⟩
    sysOrgData := some (some (.object [])) } }
  slaves _ := { configArgs := ⟨0, 100, 100, 1000, 100⟩ }

def startObj (id : Int) : Text :=
  some (.object [("id", .number id)])

def attached : List Label :=
  [.slaveAdd Master.Polled.slaveText true (some 1), .objAdd (Slave.camera 5) {},
    .poll 1 10 true {}, .manage 0 11 true {}, .command .streamStart (startObj 5) true]

end

end Cluster
