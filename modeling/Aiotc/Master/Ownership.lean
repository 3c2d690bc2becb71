import Aiotc.Master.Settings

-- Which slaves hold the objects of the master, while slaves become unreachable and objects are
-- deleted.

open Queue

structure Network where
  cluster : Cluster
  reachable : Endpoint → Bool

namespace Network

inductive Label
  | cluster (l : Cluster.Label)
  | objDel (buf : Text)
  | reach (e : Endpoint) (up : Bool)

-- The slaves that the master gets through to in a step.
def called (c : Cluster) : Cluster.Label → List Endpoint
  | .command cmd buf true     =>
    match cmd.request buf c.master with
    | none            => []
    | some (_, posts) => posts.map Post.endpoint
  | .manage i tvSec true _    =>
    let p := do
      let o ← c.mobjQueue[i]?
      let r ← Master.mobjManager tvSec c.slaveQueue o
      Master.slaveAt c.slaveQueue r.obj.slave
    (p.map SlaveParam.endpoint).toList
  | .poll a _ true _          =>
    ((Master.slaveAt c.slaveQueue (some a)).map SlaveParam.endpoint).toList
  | _                         => []

def exec : Label → Network → Option Network
  | .cluster l, n  =>
    if ∀ e ∈ called n.cluster l, n.reachable e then
      (Cluster.exec l n.cluster).map fun c => { n with cluster := c }
    else
      none
  | .objDel buf, n =>
    let m := Master.masterRequestObjDel buf n.cluster.master
    some { n with cluster := { n.cluster with master := m } }
  | .reach e up, n => some { n with reachable := Function.update n.reachable e up }

def Step (n : Network) (l : Label) (n' : Network) : Prop :=
  exec l n = some n'

end Network

namespace Cluster

-- An object is known by its id.
def Holds (c : Cluster) (e : Endpoint) (id : Int) : Prop :=
  id ∈ Slave.objIds (c.slaves e)

def ids (c : Cluster) : List Int :=
  c.mobjQueue.map ObjParam.id

-- The text that a slave is sent makes it an object with the id that the master has.
def Texted (q : List ObjParam) : Prop :=
  ∀ o ∈ q, Complete o.originaldata ∧ o.id = getIntValFromJson o.originaldata ["id"]

-- What is common to the steps that attach no object and delete none.
structure Frame (c c' : Cluster) : Prop where
  follows  : Master.Follows c.slaveQueue c'.slaveQueue
  holds    : ∀ e id, c'.Holds e id ↔ c.Holds e id
  attached : ∀ o' ∈ c'.mobjQueue, o'.attachSlave ≠ 0 →
    ∃ o ∈ c.mobjQueue, o.attachSlave ≠ 0 ∧ o.id = o'.id ∧ o.slave = o'.slave
  kept     : ∀ id ∈ c.ids, id ∈ c'.ids
  texted   : Texted c.mobjQueue → Texted c'.mobjQueue

variable {c c' : Cluster}

theorem Texted.of_keys {q q' : List ObjParam} (h : Texted q) (hk : q'.map key = q.map key) :
    Texted q' :=
  forall_of_keys (P := fun id buf => Complete buf ∧ id = getIntValFromJson buf ["id"]) hk h

theorem Frame.of_keys (hf : Master.Follows c.slaveQueue c'.slaveQueue)
    (hs : ∀ e, Slave.objIds (c'.slaves e) = Slave.objIds (c.slaves e))
    (hk : c'.mobjQueue.map key = c.mobjQueue.map key)
    (ha : ∀ o' ∈ c'.mobjQueue, o'.attachSlave ≠ 0 →
      ∃ o ∈ c.mobjQueue, o.attachSlave ≠ 0 ∧ o.id = o'.id ∧ o.slave = o'.slave) : Frame c c' where
  follows      := hf
  holds e id   := by simp only [Holds, hs]
  attached     := ha
  kept id hid  := by rwa [ids, ids_of_keys hk]
  texted h     := h.of_keys hk

def Accepts (ap : AiotcParams) (malloc : ObjMalloc) : Prop :=
  malloc.Ok ∧ ap.objQueue.length < ap.configArgs.slaveObjMax

-- What a visit of `mobjManager` does to the slave that it attaches the object to.
structure Attached (c c' : Cluster) (i : Nat) (up : Bool) (malloc : ObjMalloc) (o : ObjParam)
    (p : SlaveParam) : Prop where
  follows : Master.Follows c.slaveQueue c'.slaveQueue
  holds   : ∀ e id, c'.Holds e id ↔ c.Holds e id ∨
    e = p.endpoint ∧ id = o.id ∧ up = true ∧ Accepts (c.slaves p.endpoint) malloc
  placed  : ∃ a, Master.slaveAt c.slaveQueue (some a) = some p ∧
    c'.mobjQueue = c.mobjQueue.set i { o with slave := some a, attachSlave := 1 }

theorem Target.redirect {tvSec : Int} {sq : SlaveQueue} {o : ObjParam} {p : SlaveParam}
    {r : Master.Placed} (h : Target tvSec sq o p) (e : Master.mobjManager tvSec sq o = some r) :
    r.redirect = true ∧ ∃ a, r.obj = { o with slave := some a, attachSlave := 1 } ∧
      Master.slaveAt sq (some a) = some p := by
  cases h
  case inl h =>
    obtain ⟨ha, hp, hn⟩ := h
    have hs : o.slave ≠ none := fun hs => by simp [hs, Master.slaveAt] at hp
    obtain ⟨a, hs'⟩ := Option.ne_none_iff_exists'.mp hs
    simp only [Master.mobjManager, if_pos (And.intro hs ha), hp, Option.bind_eq_bind,
      Option.bind_some, if_pos hn] at e
    cases e
    exact ⟨rfl, a, by simp [← hs'], hs' ▸ hp⟩
  case inr h =>
    obtain ⟨hs, ⟨a, p'⟩, hl, hp⟩ := h
    simp only [Master.mobjManager, hs, ne_eq, not_true, false_and, if_false, if_true, hl,
      Master.place] at e
    cases e
    exact ⟨rfl, a, rfl, hp⟩

theorem Target.eq {tvSec : Int} {sq : SlaveQueue} {o : ObjParam} {p p' : SlaveParam}
    (h : Target tvSec sq o p) (h' : Target tvSec sq o p') : p = p' := by
  cases h <;> cases h'
  case inl.inl h h' => exact Option.some.inj (h.right.left.symm.trans h'.right.left)
  case inl.inr h h' => simp [h'.left, Master.slaveAt] at h
  case inr.inl h h' => simp [h.left, Master.slaveAt] at h'
  case inr.inr h h' =>
    obtain ⟨-, x, hx, hp⟩ := h
    obtain ⟨-, y, hy, hp'⟩ := h'
    cases Option.some.inj (hx.symm.trans hy)
    exact Option.some.inj (hp.symm.trans hp')

end Cluster

namespace Network

open Cluster

-- What a slave holds was sent by the master. If the master does not have it any more, it was
-- deleted there.
structure Owned (n : Network) : Prop where
  attached : ∀ o ∈ n.cluster.mobjQueue, o.attachSlave ≠ 0 →
    ∃ p, Master.slaveAt n.cluster.slaveQueue o.slave = some p ∧
      ∀ e, n.cluster.Holds e o.id ↔ e = p.endpoint
  deleted  : ∀ e, n.reachable e = true → ∀ id, n.cluster.Holds e id → id ∈ n.cluster.ids

-- An object is attached to a slave that holds it, or that its post reaches and that accepts it,
-- while no other slave holds it. What a reachable slave holds is only deleted if the master has the
-- id once more, and a slave that becomes reachable holds nothing that was deleted.
def Delivered (n : Network) : Label → Prop
  | .cluster (.manage i tvSec up malloc) => ∀ o p, n.cluster.mobjQueue[i]? = some o →
    Target tvSec n.cluster.slaveQueue o p →
      (n.cluster.Holds p.endpoint o.id ∨
        up = true ∧ Accepts (n.cluster.slaves p.endpoint) malloc) ∧
      ∀ e, n.cluster.Holds e o.id → e = p.endpoint
  | .objDel buf   => ∀ e, n.reachable e = true →
    n.cluster.Holds e (getIntValFromJson buf ["id"]) →
    1 < n.cluster.ids.count (getIntValFromJson buf ["id"])
  | .reach e true => ∀ id, n.cluster.Holds e id → id ∈ n.cluster.ids
  | _             => True

structure Inv (n : Network) : Prop where
  owned  : Owned n
  texted : Texted n.cluster.mobjQueue

variable {n n' : Network} {l : Label}

theorem Owned.frame (h : Owned n) (hf : Frame n.cluster n'.cluster)
    (hr : ∀ e, n'.reachable e = true → n.reachable e = true) : Owned n' where
  attached o' ho' ha := by
    have ⟨o, ho, ha, hi, hs⟩ := hf.attached o' ho' ha
    have ⟨p, hp, hh⟩ := h.attached o ho ha
    have ⟨p', hp', he⟩ := hf.follows _ _ hp
    refine ⟨p', hs ▸ hp', fun e => ?_⟩
    rw [hf.holds, ← hi, hh, he]
  deleted e he id hid := hf.kept id (h.deleted e (hr e he) id ((hf.holds e id).mp hid))

-- An object that is attached under the condition above is held by its slave alone.
theorem Owned.attach {c : Cluster} {i : Nat} {up : Bool} {malloc : ObjMalloc} {o : ObjParam}
    {p : SlaveParam} (h : Owned n) (ha : Attached n.cluster c i up malloc o p)
    (ho : n.cluster.mobjQueue[i]? = some o)
    (hc : (n.cluster.Holds p.endpoint o.id ∨
        up = true ∧ Accepts (n.cluster.slaves p.endpoint) malloc) ∧
      ∀ e, n.cluster.Holds e o.id → e = p.endpoint) : Owned { n with cluster := c } := by
  have ⟨a, hp, hm⟩ := ha.placed
  have ⟨hin, hout⟩ := hc
  have hh : ∀ e, c.Holds e o.id ↔ e = p.endpoint := by
    intro e
    rw [ha.holds]
    grind
  constructor
  case attached =>
    intro o' ho' ha'
    change o' ∈ c.mobjQueue at ho'
    cases List.mem_or_eq_of_mem_set (hm ▸ ho')
    case inr ho' =>
      have ⟨p', hp', he⟩ := ha.follows _ _ hp
      refine ⟨p', ho' ▸ hp', fun e => ?_⟩
      rw [he, ho']
      exact hh e
    case inl ho' =>
      have ⟨q, hq, hh'⟩ := h.attached o' ho' ha'
      have ⟨q', hq', he⟩ := ha.follows _ _ hq
      refine ⟨q', hq', fun e => ?_⟩
      have hp' : o'.id = o.id → p.endpoint = q.endpoint := fun hid =>
        (hout q.endpoint (hid ▸ (hh' q.endpoint).mpr rfl)).symm
      rw [he, ha.holds, hh']
      grind
  case deleted =>
    intro e he id hid
    have hi : c.ids = n.cluster.ids := ids_of_keys (hm ▸ map_set_of_key ho rfl)
    change id ∈ c.ids
    rw [hi]
    cases (ha.holds e id).mp hid
    case inl hid => exact h.deleted e he id hid
    case inr hid => exact hid.right.left ▸ List.mem_map_of_mem (List.mem_of_getElem? ho)

theorem mem_erase_iff {xs : List Int} {x : Int} : x ∈ xs.erase x ↔ 1 < xs.count x := by
  rw [← List.count_pos_iff, List.count_erase_self]
  omega

section

def start : Network where
  cluster := Cluster.start
  reachable _ := true

-- The second object is deleted before it has a slave.
def attached : List Label := [
  .cluster (.slaveAdd Master.Polled.slaveText true (some 1)),
  .cluster (.objAdd (Slave.camera 5) {}), .cluster (.objAdd (Slave.camera 6) {}),
  .objDel (Cluster.startObj 6),
  .cluster (.poll 1 10 true {}), .cluster (.manage 0 11 true {})]

end

end Network
