import Aiotc.Share.Traverse
import Aiotc.Task.Loops

-- A pass of `beat_thread` over the objects of its process, which takes those that have nothing to
-- do any more out of the queue that it is going through.

open Heap Share

-- The copy of an `objParam` in `pobjQueue`. `task` points to shared memory.
structure PObj where
  id : Int
  task : Addr

-- Of `pidOps` what belongs to its objects, but for `pobjQueue`. `tasks` is where they point to.
structure BeatArgs where
  tasks : Addr → TaskParams
  tvSec : Int := 0
  load : Int := 0
  taskMax : Int

namespace Pass

def conditionByObjId (id : Int) (x : Addr × NodeData PObj) : Int :=
  if x.2.name.id = id then 1 else 0

-- A node takes more than 256 bytes of a pool whose size is an `int`, so that the product does not
-- overflow.
def procLoad (s : Store PObj) (taskMax : Int) : Int :=
  (s.queue.queLen * 100).tdiv taskMax

def delObjFromPidQue (id : Int) (s : Store PObj) (t : BeatArgs) :
    Option (Store PObj × BeatArgs) := do
  let r ← delFromQueue (conditionByObjId id) s
  let t := { t with load := procLoad r.store t.taskMax }
  match r.newP with
  | none   => return (r.store, t)
  | some p => return ({ r.store with nodes := Function.update r.store.nodes p none }, t)

-- `rtspProcBeat`, `previewProcBeat` and `gat1400ProcBeat`. The object is not read again once it is
-- deleted, only its task is.
def procBeat (l : Loop) : NodeCallback PObj BeatArgs := fun p s t => do
  let c ← s.nodes p
  let o := c.data.name
  let (task, del) := l.procBeat t.tvSec (t.tasks o.task)
  let (s, t) ← if del then delObjFromPidQue o.id s t else some (s, t)
  return (0, s, { t with tasks := Function.update t.tasks o.task task })

end Pass

-- What `ProcBeat` writes, next to `Loop.beat`, which `TaskBeat` writes.
def Loop.procTime : Loop → TaskParams → Int
  | rtsp, t    => t.liveBeat
  | preview, t => t.previewBeat
  | gat1400, t => t.captureBeat

-- The object is to be taken out.
def Loop.idle (l : Loop) (t : TaskParams) : Bool :=
  !l.flag t ∧ l.beat t = 0

section

variable {l : Loop} {tvSec : Int} {t : TaskParams}

theorem Loop.procBeat_snd : (l.procBeat tvSec t).2 = l.idle t := by
  cases l <;>
    simp only [procBeat, Task.rtspProcBeat, Task.previewProcBeat, Task.gat1400ProcBeat, idle, flag,
      beat] <;> grind

theorem Loop.procTime_procBeat :
    l.procTime (l.procBeat tvSec t).1 =
      if l.flag t then tvSec else if l.idle t then 0 else l.procTime t := by
  cases l <;>
    simp only [procBeat, Task.rtspProcBeat, Task.previewProcBeat, Task.gat1400ProcBeat, idle, flag,
      beat, procTime] <;> grind

@[simp]
theorem Loop.flag_procBeat : l.flag (l.procBeat tvSec t).1 = l.flag t := by
  cases l <;>
    simp only [procBeat, Task.rtspProcBeat, Task.previewProcBeat, Task.gat1400ProcBeat, flag] <;>
    grind

@[simp]
theorem Loop.beat_procBeat : l.beat (l.procBeat tvSec t).1 = l.beat t := by
  cases l <;>
    simp only [procBeat, Task.rtspProcBeat, Task.previewProcBeat, Task.gat1400ProcBeat, beat] <;>
    grind

theorem Loop.procBeat_idem :
    (l.procBeat tvSec (l.procBeat tvSec t).1).1 = (l.procBeat tvSec t).1 := by
  cases l <;>
    simp only [procBeat, Task.rtspProcBeat, Task.previewProcBeat, Task.gat1400ProcBeat] <;>
    grind

end

def BeatArgs.task (t : BeatArgs) (x : Addr × NodeData PObj) : TaskParams :=
  t.tasks x.2.name.task

-- What a pass over the objects of `q` leaves: those that are idle are out of the queue and freed,
-- the others are as they were, and the tasks know when they were last seen to.
structure Passed (l : Loop) (q : AbsQueue PObj) (s : Store PObj) (t : BeatArgs) (s' : Store PObj)
    (t' : BeatArgs) : Prop where
  queue    : Represents s' ⟨q.nodes.filter fun x => !l.idle (t.task x), q.useMax⟩
  freed    : ∀ x ∈ q.nodes, l.idle (t.task x) → s'.nodes x.1 = none
  others   : ∀ a, (∀ x ∈ q.nodes, x.1 = a → l.idle (t.task x) = false) → s'.data a = s.data a
  procTime : ∀ x ∈ q.nodes, l.procTime (t'.task x) =
    if l.flag (t.task x) then t.tvSec else if l.idle (t.task x) then 0 else l.procTime (t.task x)
  tasks    : ∀ p, (∀ x ∈ q.nodes, x.2.name.task ≠ p) → t'.tasks p = t.tasks p
  load     : t'.load = (s'.queue.queLen * 100).tdiv t.taskMax
  full     : t'.load < 100 ↔ s'.queue.queLen < t.taskMax

namespace Pass

variable {l : Loop} {s s' : Store PObj} {t t' : BeatArgs} {q : AbsQueue PObj} {u : Int}
  {us vs : List (Addr × NodeData PObj)} {a : Addr} {d : NodeData PObj}

-- The second search, by the id, leads to the node that is being visited.
theorem delObjFromPidQue_eq (h : Represents s ⟨us ++ (a, d) :: vs, u⟩)
    (hd : ∀ x ∈ us, x.2.name.id ≠ d.name.id) :
    ∃ s', delObjFromPidQue d.name.id s t = some (s', { t with load := procLoad s' t.taskMax }) ∧
      Represents s' ⟨us ++ vs, u⟩ ∧ s'.data = Function.update s.data a none := by
  have ⟨r, hr, href⟩ := h.del (conditionByObjId d.name.id)
  have hc : ∀ x ∈ us, conditionByObjId d.name.id x ≠ 1 := by
    intro x hx
    simp [conditionByObjId, hd x hx]
  rw [AbsQueue.del_of_first rfl hc (by simp [conditionByObjId])] at href
  have hn : a ∉ addrs (us ++ vs) := by
    have := h.nodup
    simp only [List.map_append, List.map_cons, List.nodup_middle, List.nodup_cons] at this ⊢
    exact this.left
  refine ⟨{ r.store with nodes := Function.update r.store.nodes a none }, ?_, ?_, ?_⟩
  case refine_1 => simp [delObjFromPidQue, hr, href.newP, procLoad]
  case refine_2 => exact { href.represents with seg := href.represents.seg.update hn none }
  case refine_3 =>
    funext b
    have hb := congrFun (data_delFromQueue hr) b
    simp only [Store.data] at hb ⊢
    by_cases hba : b = a
    case pos => simp [hba]
    case neg => simp [hba, hb, Store.data]

theorem procBeat_eq (h : Represents s ⟨us ++ (a, d) :: vs, u⟩)
    (hd : ∀ x ∈ us, x.2.name.id ≠ d.name.id) (hl : t.load = procLoad s t.taskMax) :
    ∃ s', procBeat l a s t = some (0, s', { t with
        tasks := Function.update t.tasks d.name.task (l.procBeat t.tvSec (t.task (a, d))).1
        load := procLoad s' t.taskMax }) ∧
      Represents s' ⟨us ++ (if l.idle (t.task (a, d)) then vs else (a, d) :: vs), u⟩ ∧
      s'.data = if l.idle (t.task (a, d)) then Function.update s.data a none else s.data := by
  simp only [procBeat, h.nodes_eq, bind, pure, Option.bind_some, Loop.procBeat_snd]
  cases hi : l.idle (t.task (a, d))
  case false =>
    have hi : l.idle (t.tasks d.name.task) = false := hi
    simp only [hi, Bool.false_eq_true, if_false]
    refine ⟨s, ?_, h, rfl⟩
    rw [← hl]
    rfl
  case true =>
    have hi : l.idle (t.tasks d.name.task) = true := hi
    have ⟨s', he, hr, hs⟩ := delObjFromPidQue_eq (t := t) h hd
    simp only [hi, if_true, he, Option.bind_some]
    exact ⟨s', rfl, hr, hs⟩

-- What the pass has done when it has visited `us`.
structure Inv (l : Loop) (q : AbsQueue PObj) (s₀ : Store PObj) (t₀ : BeatArgs)
    (us vs : List (Addr × NodeData PObj)) (s : Store PObj) (t : BeatArgs) : Prop where
  nodes   : us ++ vs = q.nodes
  queue   : Represents s ⟨us.filter (fun x => !l.idle (t₀.task x)) ++ vs, q.useMax⟩
  freed   : ∀ x ∈ us, l.idle (t₀.task x) → s.data x.1 = none
  others  : ∀ a, (∀ x ∈ us, x.1 = a → l.idle (t₀.task x) = false) → s.data a = s₀.data a
  seen    : ∀ x ∈ us, t.task x = (l.procBeat t₀.tvSec (t₀.task x)).1
  tasks   : ∀ p, (∀ x ∈ us, x.2.name.task ≠ p) → t.tasks p = t₀.tasks p
  load    : t.load = procLoad s t.taskMax
  tvSec   : t.tvSec = t₀.tvSec
  taskMax : t.taskMax = t₀.taskMax

variable {s₀ : Store PObj} {t₀ : BeatArgs}

-- Two objects that share a task agree about it, and the second visit finds what the first has left.
theorem Inv.task_cases (h : Inv l q s₀ t₀ us vs s t) (x : Addr × NodeData PObj) :
    t.task x = t₀.task x ∨ t.task x = (l.procBeat t₀.tvSec (t₀.task x)).1 := by
  by_cases hx : ∃ y ∈ us, y.2.name.task = x.2.name.task
  case neg =>
    left
    apply h.tasks
    intro y hy he
    exact hx ⟨y, hy, he⟩
  case pos =>
    have ⟨y, hy, he⟩ := hx
    have hs := h.seen y hy
    simp only [BeatArgs.task, he] at hs
    exact .inr hs

theorem Inv.idle (h : Inv l q s₀ t₀ us vs s t) (x : Addr × NodeData PObj) :
    l.idle (t.task x) = l.idle (t₀.task x) := by
  cases h.task_cases x
  case inl hx => rw [hx]
  case inr hx => simp [hx, Loop.idle]

theorem Inv.procBeat (h : Inv l q s₀ t₀ us vs s t) (x : Addr × NodeData PObj) :
    (l.procBeat t.tvSec (t.task x)).1 = (l.procBeat t₀.tvSec (t₀.task x)).1 := by
  rw [h.tvSec]
  cases h.task_cases x
  case inl hx => rw [hx]
  case inr hx => rw [hx, Loop.procBeat_idem]

theorem Inv.step (h : Inv l q s₀ t₀ us ((a, d) :: vs) s t)
    (hd : q.nodes.Pairwise fun x y => x.2.name.id ≠ y.2.name.id) :
    ∃ s' t', s.nodes a = some ⟨d, (addrs vs).head?⟩ ∧ Pass.procBeat l a s t = some (0, s', t') ∧
      Inv l q s₀ t₀ (us ++ [(a, d)]) vs s' t' := by
  have hne : ∀ x ∈ us.filter (fun x => !l.idle (t₀.task x)), x.2.name.id ≠ d.name.id := by
    intro x hx
    have hd := (List.pairwise_append.mp (h.nodes ▸ hd)).right.right
    exact hd x (List.mem_of_mem_filter hx) (a, d) List.mem_cons_self
  have ⟨s', he, hq, hs⟩ := procBeat_eq (l := l) h.queue hne h.load
  refine ⟨s', _, h.queue.nodes_eq, he, ?_⟩
  rw [h.idle] at hq hs
  constructor
  case nodes => simpa using h.nodes
  case queue => cases hi : l.idle (t₀.task (a, d)) <;> simpa [hi] using hq
  case freed =>
    intro x hx hi
    rcases List.mem_append.mp hx with hx | hx
    case inl =>
      rw [hs]
      split
      case isFalse => exact h.freed x hx hi
      case isTrue  => simp [Function.update_apply, h.freed x hx hi]
    case inr =>
      cases List.mem_singleton.mp hx
      rw [hs, if_pos hi, Function.update_self]
  case others =>
    intro b hb
    have hu : s.data b = s₀.data b := h.others b fun x hx => hb x (List.mem_append_left _ hx)
    rw [hs]
    split
    case isFalse => exact hu
    case isTrue hi =>
      have hba : b ≠ a := by
        rintro rfl
        simp [hb (b, d) (by simp) rfl] at hi
      rw [Function.update_of_ne hba, hu]
  case seen =>
    intro x hx
    simp only [BeatArgs.task, Function.update_apply]
    by_cases hxd : x.2.name.task = d.name.task
    case pos =>
      rw [if_pos hxd, hxd]
      exact h.procBeat (a, d)
    case neg =>
      rw [if_neg hxd]
      rcases List.mem_append.mp hx with hx | hx
      · exact h.seen x hx
      · cases List.mem_singleton.mp hx
        contradiction
  case tasks =>
    intro p hp
    have hpd : p ≠ d.name.task := (hp (a, d) (by simp)).symm
    simp only [Function.update_of_ne hpd]
    exact h.tasks p fun x hx => hp x (List.mem_append_left _ hx)
  case load    => rfl
  case tvSec   => exact h.tvSec
  case taskMax => exact h.taskMax

theorem load_lt_iff {n : Nat} {m : Int} (hm : 1 ≤ m) :
    ((n : Int) * 100).tdiv m < 100 ↔ (n : Int) < m := by
  rw [Int.tdiv_eq_ediv_of_nonneg (by omega), Int.ediv_lt_iff_lt_mul (by omega)]
  omega

theorem Inv.passed (h : Inv l q s₀ t₀ q.nodes [] s t) (ht : 1 ≤ t₀.taskMax) :
    Passed l q s₀ t₀ s t where
  queue := by simpa using h.queue
  freed x hx hi := Option.map_eq_none_iff.mp (h.freed x hx hi)
  others := h.others
  procTime x hx := by rw [h.seen x hx, Loop.procTime_procBeat]
  tasks := h.tasks
  load := by rw [h.load, procLoad, h.taskMax]
  full := by rw [h.load, procLoad, h.taskMax, h.queue.len, load_lt_iff ht]

end Pass

-- One pass visits each object once, whatever it takes out of the queue on the way.
theorem proc_pass {l : Loop} {q : AbsQueue PObj} {s : Store PObj} {t : BeatArgs}
    (h : Represents s q) (hd : q.nodes.Pairwise fun x y => x.2.name.id ≠ y.2.name.id)
    (ht : 1 ≤ t.taskMax) (hl : t.load = (s.queue.queLen * 100).tdiv t.taskMax) :
    (addrs q.nodes).Nodup ∧ ∃ s' t', traverseQueue (Pass.procBeat l) s t =
      some (addrs q.nodes, s', t') ∧ Passed l q s t s' t' := by
  have hi : Pass.Inv l q s t [] q.nodes s t := by
    constructor
    case nodes   => rfl
    case queue   => exact h
    case freed   => exact nofun
    case others  => exact fun _ _ => rfl
    case seen    => exact nofun
    case tasks   => exact fun _ _ => rfl
    case load    => exact hl
    case tvSec   => rfl
    case taskMax => rfl
  have ⟨s', t', he, hi⟩ :=
    traverseQueue_rule (Pass.Inv l q s t) (fun _ _ _ _ _ _ h => h.step hd) h hi
  exact ⟨h.nodup, s', t', he, hi.passed ht⟩

section

-- The first object is live, the second is idle, and the third is still to be stopped.
def threeObjs : AbsQueue PObj where
  nodes := [(8, { name := ⟨1, 40⟩ }), (16, { name := ⟨2, 48⟩ }), (24, { name := ⟨3, 56⟩ })]

def threeNodes : Store PObj where
  nodes
    | 8  => some ⟨{ name := ⟨1, 40⟩ }, some 16⟩
    | 16 => some ⟨{ name := ⟨2, 48⟩ }, some 24⟩
    | 24 => some ⟨{ name := ⟨3, 56⟩ }, none⟩
    | _  => none
  blocks := fun _ => false
  queue := { head := some 8, tail := some 24, queLen := 3 }

def threeTasks : BeatArgs where
  tasks
    | 40 => { livestream := 1 }
    | 56 => { liveTaskBeat := 90 }
    | _  => {}
  tvSec := 100
  load := 75
  taskMax := 4

theorem proc_pass_witness :
    ∃ s' t', traverseQueue (Pass.procBeat .rtsp) threeNodes threeTasks =
      some ([8, 16, 24], s', t') ∧ s'.nodes 16 = none ∧ (t'.tasks 40).liveBeat = 100 := by
  have hr : Represents threeNodes threeObjs := by
    refine ⟨?_, rfl, rfl, rfl⟩
    exact ⟨rfl, some 16, rfl, rfl, some 24, rfl, rfl, none, rfl, rfl⟩
  have ⟨_, s', t', he, hp⟩ := proc_pass (l := .rtsp) (t := threeTasks) hr
    (by simp [threeObjs]) (by decide) (by decide)
  refine ⟨s', t', he, hp.freed (16, _) (List.mem_cons_of_mem _ List.mem_cons_self) rfl, ?_⟩
  exact hp.procTime (8, _) List.mem_cons_self

end
