import Aiotc.Library.Select
import Aiotc.Master.Pointers
import Aiotc.Master.Poll

-- Which slaves the objects of a master are attached to, while slaves are polled and objects are
-- visited by `mobjManager`.

open Queue

namespace Master

-- `poll` is the visit of `slaveLoad` to the slave at `a`, `manage` that of `mobjManager` to the
-- object at `i`. `ack` is what the slave replies to the /obj/add of a redirected object.
inductive Visit
  | poll (a : Addr) (x : Poll)
  | manage (i : Nat) (tvSec : Int) (ack : Option Text)

namespace Visit

def tvSec : Visit → Int
  | poll _ x         => x.tvSec
  | manage _ tvSec _ => tvSec

def pollSlave (a : Addr) (x : Poll) (mp : MasterParams) : Option MasterParams := do
  let p ← slaveAt mp.slaveQueue (some a)
  let r := slaveLoad x.ack x.tvSec x.sysOrgData p
  let mp ← (if r.detach then detachSlave p mp else some mp)
  return { mp with slaveQueue := updateSlave a (fun _ => r.param) mp.slaveQueue }

-- The end of `mobjManager`, for an object that is redirected.
def redirect (ack : Option Text) (o : ObjParam) (mp : MasterParams) : MasterParams :=
  match o.slave, redirectText o with
  | some a, some _ => { mp with slaveQueue := updateSlave a (redirectLoad ack) mp.slaveQueue }
  | _, _           => mp

def manageObj (i : Nat) (tvSec : Int) (ack : Option Text) (mp : MasterParams) :
    Option MasterParams := do
  let o ← mp.mobjQueue[i]?
  let r ← mobjManager tvSec mp.slaveQueue o
  let mp := { mp with mobjQueue := mp.mobjQueue.set i r.obj }
  return if r.redirect then redirect ack r.obj mp else mp

def exec : Visit → MasterParams → Option MasterParams
  | poll a x, mp             => if 0 < x.tvSec then pollSlave a x mp else none
  | manage i tvSec ack, mp => manageObj i tvSec ack mp

def Step (mp : MasterParams) (v : Visit) (mp' : MasterParams) : Prop :=
  exec v mp = some mp'

end Visit

-- Slaves that `addSlave` queued, and objects that are not attached.
structure Unattached (mp : MasterParams) : Prop where
  nodes  : (nodes mp.slaveQueue).Nodup
  slaves : ∀ x ∈ mp.slaveQueue, ∃ buf, newSlave buf = some x.2
  objs   : ∀ o ∈ mp.mobjQueue, o.attachSlave = 0

-- An attached object has a slave that is not offline.
def AttachedOnline (mp : MasterParams) : Prop :=
  ∀ o ∈ mp.mobjQueue, o.attachSlave = 1 →
    ∃ p, slaveAt mp.slaveQueue o.slave = some p ∧ p.offline = 0

-- What a step does to an object: it is only attached to a slave that is initialised, not offline
-- and not loaded, and it only leaves a slave that has not gone offline within 120 seconds.
structure Orderly (mp : MasterParams) (v : Visit) (mp' : MasterParams) : Prop where
  attach : ∀ (i : Nat) o o', mp.mobjQueue[i]? = some o → mp'.mobjQueue[i]? = some o' →
    o.attachSlave ≠ 1 → o'.attachSlave = 1 → ∃ p, slaveAt mp.slaveQueue o'.slave = some p ∧
      p.systemInit ≠ 0 ∧ p.offline = 0 ∧ p.load < SLAVE_LOAD_MAX
  leave  : ∀ (i : Nat) o o' p, mp.mobjQueue[i]? = some o → mp'.mobjQueue[i]? = some o' →
    slaveAt mp.slaveQueue o.slave = some p → o'.slave ≠ o.slave →
      ¬(p.offline ≠ 0 ∧ v.tvSec - p.offline < 120)

-- How a visit of `mobjManager` to an object can end.
inductive Visited (tvSec : Int) (sq : SlaveQueue) (o : ObjParam) : Placed → Prop
  | old {p} : o.attachSlave = 0 → slaveAt sq o.slave = some p → slaveIsNormal tvSec p = 1 →
    Visited tvSec sq o { obj := { o with attachSlave := 1 }, redirect := true }
  | left {p} : o.attachSlave = 0 → slaveAt sq o.slave = some p → slaveIsNormal tvSec p = -1 →
    Visited tvSec sq o { obj := { o with slave := none } }
  | new {x} : o.slave = none → getLowestLoadSlave sq = some x →
    Visited tvSec sq o { obj := { o with slave := some x.1, attachSlave := 1 }
                         redirect := true
                         slaveIp := some x.2.ip }
  | same : Visited tvSec sq o { obj := o }

section

variable {sq : SlaveQueue} {mp mp' : MasterParams} {o o' : ObjParam} {p : SlaveParam} {a : Addr}
  {s : Ptr} {tvSec : Int} {ack : Option Text}

theorem slaveAt_updateSlave (f : SlaveParam → SlaveParam) :
    slaveAt (updateSlave a f sq) s =
      if s = some a then (slaveAt sq s).map f else slaveAt sq s := by
  cases s
  case none => rfl
  case some b =>
    by_cases hb : b = a
    case pos =>
      subst hb
      have hm := searchFromQueue_modifyFound_self (fun x => x.1 = b) (fun x => (x.1, f x.2)) sq
        fun _ => id
      simp only [slaveAt, updateSlave, searchFromQueue, Option.bind_eq_bind, Option.bind_some,
        if_true] at hm ⊢
      rw [hm]
      cases sq.find? fun x => x.1 = b <;> rfl
    case neg =>
      have hm := searchFromQueue_modifyFound (fun x => x.1 = a) (fun x => x.1 = b)
        (fun x => (x.1, f x.2)) sq (fun _ => rfl) (by simp; grind)
      simp only [slaveAt, updateSlave, searchFromQueue, Option.bind_eq_bind, Option.bind_some,
        Option.some.injEq, hb, if_false] at hm ⊢
      rw [hm]

theorem slaveAt_of_mem (hn : (nodes sq).Nodup) (h : (a, p) ∈ sq) :
    slaveAt sq (some a) = some p := by
  induction sq
  case nil => simp at h
  case cons x sq hi =>
    have ⟨hx, hn⟩ := List.nodup_cons.mp hn
    rcases List.mem_cons.mp h with rfl | h
    · simp [slaveAt]
    · have hne : x.1 ≠ a := fun he => hx (he ▸ List.mem_map_of_mem h)
      have hi := hi hn h
      simp only [slaveAt, Option.bind_eq_bind, Option.bind_some] at hi ⊢
      rwa [List.find?_cons_of_neg (by simpa using hne)]

-- A slave that can be given objects.
def eligible (p : SlaveParam) : Bool :=
  p.online ≠ 0 ∧ p.systemInit ≠ 0 ∧ p.load < SLAVE_LOAD_MAX

theorem getLowestLoadSlave_eq (sq : SlaveQueue) :
    getLowestLoadSlave sq = Select.least (fun x => eligible x.2) (fun x => x.2.load) sq := by
  apply Select.foldl_eq_least
  case hn =>
    intro x
    simp [getlowestLoadSlave, eligible]
  case hs =>
    intro y x hy
    simp only [eligible, decide_eq_true_eq] at hy
    simp only [getlowestLoadSlave, eligible, decide_eq_true_eq]
    -- A load below that of the candidate is below the limit.
    have hl := hy.right.right
    grind

-- The slave with the lowest load can take objects.
theorem getLowestLoadSlave_some {x : Addr × SlaveParam} (h : getLowestLoadSlave sq = some x) :
    x ∈ sq ∧ x.2.online ≠ 0 ∧ x.2.systemInit ≠ 0 ∧ x.2.load < SLAVE_LOAD_MAX := by
  rw [getLowestLoadSlave_eq] at h
  obtain ⟨us, vs, rfl, hf⟩ := Select.exists_first h
  have he := hf.eligible
  simp only [eligible, decide_eq_true_eq] at he
  exact ⟨by simp, he⟩

theorem mobjManager_visited {r : Placed} (e : mobjManager tvSec sq o = some r) :
    Visited tvSec sq o r := by
  simp only [mobjManager] at e
  split at e
  case isTrue hs =>
    obtain ⟨p, hp, e⟩ := Option.bind_eq_some_iff.mp e
    split at e
    case isTrue hn =>
      cases e
      exact .old hs.right hp hn
    case isFalse =>
      split at e <;> cases e
      case isTrue hn => exact .left hs.right hp hn
      case isFalse   => exact .same
  case isFalse =>
    split at e <;> cases e
    case isTrue hs =>
      simp only [place]
      split
      case h_1 hl => exact .new hs hl
      case h_2    => exact .same
    case isFalse => exact .same

theorem slaveIsNormal_one (h : slaveIsNormal tvSec p = 1) :
    p.systemInit ≠ 0 ∧ p.offline = 0 ∧ p.load < SLAVE_LOAD_MAX := by
  simp only [slaveIsNormal] at h
  split at h
  case isTrue  => split at h <;> cases h
  case isFalse => omega

theorem slaveIsNormal_neg (h : slaveIsNormal tvSec p = -1) :
    ¬(p.offline ≠ 0 ∧ tvSec - p.offline < 120) := by
  simp only [slaveIsNormal] at h
  split at h
  case isTrue  =>
    split at h
    case isTrue       => cases h
    case isFalse hn => exact hn
  case isFalse => cases h

theorem getElem?_mapM {α β : Type*} {g : α → Option β} {xs : List α} {ys : List β}
    (h : xs.mapM g = some ys) (i : Nat) : ys[i]? = (xs[i]?).bind g := by
  induction xs generalizing ys i
  case nil =>
    cases h
    simp
  case cons x xs hi =>
    simp only [List.mapM_cons, bind, Option.bind_eq_some_iff, pure, Option.some.injEq] at h
    obtain ⟨y, hy, ys, hys, rfl⟩ := h
    cases i
    case zero   => simp [hy]
    case succ i => simpa using hi hys i

theorem slaveLoad_offline {x : Poll} (hd : (slaveLoad x.ack x.tvSec x.sysOrgData p).detach = false)
    (ho : p.offline = 0) : (slaveLoad x.ack x.tvSec x.sysOrgData p).param.offline = 0 := by
  simp only [slaveLoad] at hd ⊢
  split at hd
  case h_1 => simp [ho] at hd
  case h_2 =>
    split
    · simp
    · exact ho

theorem slaveLoad_once {x : Poll} (ht : 0 < x.tvSec) (h : p.online = 0 ∨ p.offline = 0) :
    (slaveLoad x.ack x.tvSec x.sysOrgData p).param.online = 0 ∨
    (slaveLoad x.ack x.tvSec x.sysOrgData p).param.offline = 0 := by
  cases x.ack
  case none => exact .inl (slaveLoad_noAck ht).online
  case some ack =>
    by_cases hi : getIntValFromJson ack ["data", "systemInit"] = 0
    case pos => exact .inr (slaveLoad_uninitialised ht hi).offline
    case neg =>
      have ⟨hon, hoff⟩ := slaveLoad_initialised p x.tvSec x.sysOrgData hi
      rwa [hon, hoff]

-- An object whose slave goes offline does not stay attached.
theorem detachObjSlave_self (hp : slaveAt sq o.slave = some p)
    (e : detachObjSlave sq p.ip o = some o') : o'.attachSlave = 0 := by
  simp only [detachObjSlave, hp, Option.bind_eq_bind, Option.bind_some, if_true] at e
  split at e <;> cases e
  case isTrue    => rfl
  case isFalse hn =>
    have hs : o.slave ≠ none := fun hs => by simp [hs, slaveAt] at hp
    exact not_not.mp fun ha => hn ⟨hs, ha⟩

end

-- `slaveLoad` sets one of `online` and `offline` and clears the other one.
structure AttachInv (mp : MasterParams) : Prop where
  nodes : (nodes mp.slaveQueue).Nodup
  once  : ∀ x ∈ mp.slaveQueue, x.2.online = 0 ∨ x.2.offline = 0
  objs  : ∀ o ∈ mp.mobjQueue, o.attachSlave ≠ 0 →
    ∃ p, slaveAt mp.slaveQueue o.slave = some p ∧ p.offline = 0

theorem AttachInv.attachedOnline {mp : MasterParams} (h : AttachInv mp) : AttachedOnline mp :=
  fun o ho ha => h.objs o ho (by omega)

theorem Unattached.inv {mp : MasterParams} (h : Unattached mp) : AttachInv mp where
  nodes := h.nodes
  once x hx := by
    have ⟨_, hb⟩ := h.slaves x hx
    exact .inl (Polled.newSlave_zero hb).left
  objs o ho ha := absurd (h.objs o ho) ha

namespace Visit

variable {mp mp' : MasterParams} {v : Visit} {a : Addr} {x : Poll} {i : ℕ} {tvSec : Int}
  {ack : Option Text}

theorem mem_of_slaveAt {sq : SlaveQueue} {p : SlaveParam} (h : slaveAt sq (some a) = some p) :
    (a, p) ∈ sq := by
  obtain ⟨x, hx, rfl⟩ := slaveAt_some_iff.mp h
  have ha : x.1 = a := by simpa using List.find?_some hx
  exact ha ▸ List.mem_of_find?_eq_some hx

theorem mem_updateSlave {f : SlaveParam → SlaveParam} {sq : SlaveQueue} {y : Addr × SlaveParam}
    (h : y ∈ updateSlave a f sq) : y ∈ sq ∨ ∃ z ∈ sq, y.2 = f z.2 := by
  apply (of_mem_modifyFound h).imp_right
  rintro ⟨z, hz, rfl⟩
  exact ⟨z, hz, rfl⟩

-- A poll leaves the objects where they are, and detaches some.
theorem pollSlave_objs (e : pollSlave a x mp = some mp') : ∃ p q,
    slaveAt mp.slaveQueue (some a) = some p ∧
    mp' = ⟨updateSlave a (fun _ => (slaveLoad x.ack x.tvSec x.sysOrgData p).param) mp.slaveQueue,
      q⟩ ∧
    if (slaveLoad x.ack x.tvSec x.sysOrgData p).detach then
      mp.mobjQueue.mapM (detachObjSlave mp.slaveQueue p.ip) = some q
    else
      q = mp.mobjQueue := by
  have ⟨p, hp, e⟩ := Option.bind_eq_some_iff.mp e
  have ⟨mp₁, hm, e⟩ := Option.bind_eq_some_iff.mp e
  cases e
  split at hm
  case isTrue hd =>
    have ⟨q, hq, hm⟩ := Option.bind_eq_some_iff.mp hm
    cases hm
    exact ⟨p, q, hp, rfl, by rwa [if_pos hd]⟩
  case isFalse hd =>
    cases hm
    exact ⟨p, _, hp, rfl, by rw [if_neg hd]⟩

theorem pollSlave_inv (h : AttachInv mp) (ht : 0 < x.tvSec) (e : pollSlave a x mp = some mp') :
    AttachInv mp' := by
  obtain ⟨p, q, hp, rfl, hq⟩ := pollSlave_objs e
  constructor
  case nodes => simpa using h.nodes
  case once =>
    intro y hy
    have hy : y ∈ updateSlave a (fun _ => (slaveLoad x.ack x.tvSec x.sysOrgData p).param)
        mp.slaveQueue := hy
    rcases mem_updateSlave hy with hy | ⟨_, -, hy⟩
    · exact h.once y hy
    · exact hy ▸ slaveLoad_once ht (h.once _ (mem_of_slaveAt hp))
  case objs =>
    intro o' ho' ha
    simp only [slaveAt_updateSlave]
    split at hq
    case isTrue =>
      have ⟨o, ho, hd⟩ := mem_mapM hq o' ho'
      rcases detachObjSlave_cases hd with rfl | rfl
      case inr => exact absurd rfl ha
      case inl =>
        have ⟨r, hr, hoff⟩ := h.objs o' ho ha
        have hne : o'.slave ≠ some a := fun he =>
          absurd (detachObjSlave_self (he ▸ hp) hd) ha
        exact ⟨r, by rw [if_neg hne, hr], hoff⟩
    case isFalse hd =>
      subst hq
      have ⟨r, hr, hoff⟩ := h.objs o' ho' ha
      by_cases he : o'.slave = some a
      case neg => exact ⟨r, by rw [if_neg he, hr], hoff⟩
      case pos =>
        cases Option.some.inj (hr.symm.trans (he ▸ hp))
        exact ⟨_, by rw [if_pos he, hr]; rfl, slaveLoad_offline (by simpa using hd) hoff⟩

theorem pollSlave_orderly (e : pollSlave a x mp = some mp') : Orderly mp (.poll a x) mp' := by
  obtain ⟨p, q, -, rfl, hq⟩ := pollSlave_objs e
  have hobj : ∀ (i : ℕ) o o', mp.mobjQueue[i]? = some o → q[i]? = some o' →
      o' = o ∨ o' = { o with attachSlave := 0 } := by
    intro i o o' ho ho'
    split at hq
    case isTrue =>
      rw [getElem?_mapM hq, ho] at ho'
      exact detachObjSlave_cases ho'
    case isFalse =>
      subst hq
      exact .inl (Option.some.inj (ho'.symm.trans ho))
  constructor
  case attach =>
    intro i o o' ho ho' hn ha
    rcases hobj i o o' ho ho' with rfl | rfl
    · exact absurd ha hn
    · cases ha
  case leave =>
    intro i o o' _ ho ho' _ hne
    rcases hobj i o o' ho ho' with rfl | rfl <;> exact absurd rfl hne

theorem redirect_cases (ack : Option Text) (o : ObjParam) (mp : MasterParams) : ∃ sq,
    redirect ack o mp = ⟨sq, mp.mobjQueue⟩ ∧
    (sq = mp.slaveQueue ∨ ∃ a, sq = updateSlave a (redirectLoad ack) mp.slaveQueue) := by
  simp only [redirect]
  split
  · exact ⟨_, rfl, .inr ⟨_, rfl⟩⟩
  · exact ⟨_, rfl, .inl rfl⟩

theorem manageObj_cases (e : manageObj i tvSec ack mp = some mp') : ∃ o r sq,
    mp.mobjQueue[i]? = some o ∧ Visited tvSec mp.slaveQueue o r ∧
    mp' = ⟨sq, mp.mobjQueue.set i r.obj⟩ ∧
    (sq = mp.slaveQueue ∨ ∃ a, sq = updateSlave a (redirectLoad ack) mp.slaveQueue) := by
  have ⟨o, ho, e⟩ := Option.bind_eq_some_iff.mp e
  have ⟨r, hr, e⟩ := Option.bind_eq_some_iff.mp e
  cases e
  split
  case isFalse => exact ⟨o, r, _, ho, mobjManager_visited hr, rfl, .inl rfl⟩
  case isTrue =>
    have ⟨sq, hs, hsq⟩ := redirect_cases ack r.obj
      { mp with mobjQueue := mp.mobjQueue.set i r.obj }
    exact ⟨o, r, sq, ho, mobjManager_visited hr, hs, hsq⟩

theorem redirectLoad_same (ack : Option Text) (p : SlaveParam) :
    (redirectLoad ack p).online = p.online ∧ (redirectLoad ack p).offline = p.offline ∧
      (redirectLoad ack p).systemInit = p.systemInit := by
  cases ack <;> exact ⟨rfl, rfl, rfl⟩

-- The slave that an object gets can take it.
theorem visited_attach {o : ObjParam} {r : Placed} (h : AttachInv mp)
    (hv : Visited tvSec mp.slaveQueue o r) : r.obj.attachSlave = o.attachSlave ∧
      (r.obj = o ∨ o.attachSlave = 0) ∨
    ∃ p, slaveAt mp.slaveQueue r.obj.slave = some p ∧ p.systemInit ≠ 0 ∧ p.offline = 0 ∧
      p.load < SLAVE_LOAD_MAX := by
  cases hv
  case old p _ hp hn => exact .inr ⟨p, hp, slaveIsNormal_one hn⟩
  case left ha _ _   => exact .inl ⟨rfl, .inr ha⟩
  case same          => exact .inl ⟨rfl, .inl rfl⟩
  case new x _ hl =>
    have ⟨hm, hon, hsys, hload⟩ := getLowestLoadSlave_some hl
    exact .inr ⟨x.2, slaveAt_of_mem h.nodes hm, hsys, (h.once x hm).resolve_left hon, hload⟩

theorem manageObj_inv (h : AttachInv mp) (e : manageObj i tvSec ack mp = some mp') :
    AttachInv mp' := by
  obtain ⟨o, r, sq, ho, hv, rfl, hsq⟩ := manageObj_cases e
  -- The slaves are the same but for their load.
  have hs : ∀ s p, slaveAt mp.slaveQueue s = some p →
      ∃ p', slaveAt sq s = some p' ∧ p'.offline = p.offline := by
    intro s p hp
    rcases hsq with rfl | ⟨a, rfl⟩
    · exact ⟨p, hp, rfl⟩
    · rw [slaveAt_updateSlave, hp]
      split
      · exact ⟨_, rfl, (redirectLoad_same ack p).right.left⟩
      · exact ⟨p, rfl, rfl⟩
  have hobj : r.obj.attachSlave ≠ 0 →
      ∃ p, slaveAt mp.slaveQueue r.obj.slave = some p ∧ p.offline = 0 := by
    intro ha
    rcases visited_attach h hv with ⟨he, hr | hz⟩ | ⟨p, hp, -, hoff, -⟩
    · exact hr ▸ h.objs o (List.mem_of_getElem? ho) (he ▸ ha)
    · exact absurd (he.trans hz) ha
    · exact ⟨p, hp, hoff⟩
  constructor
  case nodes =>
    rcases hsq with rfl | ⟨a, rfl⟩
    · exact h.nodes
    · simpa using h.nodes
  case once =>
    intro y hy
    rcases hsq with rfl | ⟨a, rfl⟩
    · exact h.once y hy
    · rcases mem_updateSlave hy with hy | ⟨z, hz, hy⟩
      · exact h.once y hy
      · obtain ⟨hon, hoff, -⟩ := redirectLoad_same ack z.2
        rw [hy, hon, hoff]
        exact h.once z hz
  case objs =>
    intro o' ho' ha
    have ⟨p, hp, hoff⟩ : ∃ p, slaveAt mp.slaveQueue o'.slave = some p ∧ p.offline = 0 := by
      rcases List.mem_or_eq_of_mem_set ho' with hm | rfl
      · exact h.objs o' hm ha
      · exact hobj ha
    have ⟨p', hp', he⟩ := hs o'.slave p hp
    exact ⟨p', hp', he.trans hoff⟩

theorem manageObj_orderly (h : AttachInv mp) (e : manageObj i tvSec ack mp = some mp') :
    Orderly mp (.manage i tvSec ack) mp' := by
  obtain ⟨o, r, sq, ho, hv, rfl, -⟩ := manageObj_cases e
  have hi := (List.getElem?_eq_some_iff.mp ho).choose
  -- Only the visited object changes.
  have hobj : ∀ (j : ℕ) u u', mp.mobjQueue[j]? = some u →
      (mp.mobjQueue.set i r.obj)[j]? = some u' → u' = u ∨ u = o ∧ u' = r.obj := by
    intro j u u' hu hu'
    by_cases hj : i = j
    case pos =>
      subst hj
      rw [List.getElem?_set_self hi] at hu'
      exact .inr ⟨Option.some.inj (hu.symm.trans ho), (Option.some.inj hu').symm⟩
    case neg =>
      rw [List.getElem?_set_ne hj] at hu'
      exact .inl (Option.some.inj (hu'.symm.trans hu))
  constructor
  case attach =>
    intro j u u' hu hu' hn ha
    rcases hobj j u u' hu hu' with rfl | ⟨rfl, rfl⟩
    · exact absurd ha hn
    · rcases visited_attach h hv with ⟨he, -⟩ | hp
      · exact absurd (he ▸ ha) hn
      · exact hp
  case leave =>
    intro j u u' p hu hu' hp hne
    rcases hobj j u u' hu hu' with rfl | ⟨rfl, rfl⟩
    · exact absurd rfl hne
    · cases hv
      case old          => exact absurd rfl hne
      case same         => exact absurd rfl hne
      case new hs _     => simp [hs, slaveAt] at hp
      case left q _ hq hn =>
        cases Option.some.inj (hq.symm.trans hp)
        exact slaveIsNormal_neg hn

theorem Step.inv (h : AttachInv mp) (e : Step mp v mp') : AttachInv mp' := by
  cases v
  case poll =>
    have ⟨ht, e⟩ := Option.ite_none_right_eq_some.mp e
    exact pollSlave_inv h ht e
  case manage => exact manageObj_inv h e

theorem Step.orderly (h : AttachInv mp) (e : Step mp v mp') : Orderly mp v mp' := by
  cases v
  case poll =>
    obtain ⟨-, e⟩ := Option.ite_none_right_eq_some.mp e
    exact pollSlave_orderly e
  case manage => exact manageObj_orderly h e

-- Whatever slaves answer, and in whatever order they are polled and objects are visited.
theorem attachedOnline_of_run {tr : List (MasterParams × Visit)} (h : Unattached mp)
    (r : Run Step mp tr mp') : Run.Always AttachedOnline tr mp' ∧
      Run.Meets (fun mp v => ∀ mp', Step mp v mp' → Orderly mp v mp') tr := by
  have ha := r.always_of_meets (C := fun _ _ => True) (fun _ _ _ h _ e => e.inv h) h.inv
    fun _ _ => trivial
  exact ⟨ha.mono fun _ h => h.attachedOnline, fun x hx _ e => e.orderly (ha.left x hx)⟩

section

def unattached : MasterParams where
  slaveQueue := [(1, Polled.slaveParam)]
  mobjQueue := [{ id := 5, name := "a", type := "camera", subtype := "rtsp", originaldata := none }]

-- The slave answers, is given the object, and does not answer any more.
def visits : List Visit := [
  .poll 1 { Polled.pollAt 10 (some 0) with sysOrgData := some (some (.object [])) },
  .manage 0 12 none, .poll 1 (Polled.pollAt 20 none)]

theorem attachedOnline_of_run_witness :
    ∃ tr mp', Run Step unattached tr mp' ∧ Run.Always AttachedOnline tr mp' ∧
      tr.map (fun x => x.1.mobjQueue.map ObjParam.attachSlave) = [[0], [0], [1]] ∧
      mp'.mobjQueue.map ObjParam.attachSlave = [0] := by
  have r := Run.of_partialTrace exec visits unattached rfl
  have h : Unattached unattached := by
    constructor
    case nodes  => decide
    case slaves => exact List.forall_mem_singleton.mpr ⟨Polled.slaveText, rfl⟩
    case objs   => exact List.forall_mem_singleton.mpr rfl
  exact ⟨_, _, r, (attachedOnline_of_run h r).left, rfl, rfl⟩

end

end Visit

end Master
