import Aiotc.Library.Heap
import Aiotc.Task.Beat

-- The blocks that `liveArgs` and `captureArgs` point to.

namespace Task

variable {p p' : Proc} {t t' : TaskParams} {own : Nat → Option Block} {i : Nat} {buff : Text}
  {out : Outcome} {k : Kind} {other : Capture → Prop} {b : Block} {nowSec : Int}

-- The process has used nothing but its own memory, each block that an object points to is its own,
-- and the library calls back for an object only while this has its block. `own` and `other` are
-- about the objects at places other than `i`.
structure Local (k : Kind) (own : Nat → Option Block) (other : Capture → Prop) (i : Nat)
    (buff : Text) (t : TaskParams) (p : Proc) : Prop where
  fault    : p.fault = false
  owns     : Heap.Owns p.Valid fun j b => Function.update own i (k.args t) j = some b
  captures : ∀ c ∈ p.captures, if c.obj = i then
    t.captureArgs.isSome ∧ getStrValFromJson buff ["data", "deviceId"] = some c.deviceId
    else other c

namespace Local

theorem valid (h : Local k own other i buff t p) (ha : k.args t = some b) : p.Valid b :=
  h.owns.valid i b (by simpa using ha)

-- What does not touch the pointers.
theorem congr (h : Local k own other i buff t p) (hk : k.args t' = k.args t)
    (hc : t'.captureArgs = t.captureArgs) : Local k own other i buff t' p where
  fault    := h.fault
  owns     := hk ▸ h.owns
  captures := hc ▸ h.captures

theorem deref (h : Local k own other i buff t p) (ha : k.args t = some b) : p.deref b = p := by
  simp [Proc.deref, h.valid ha]

theorem malloc {a : Ptr} (h : Local k own other i buff t p) (ha : k.args t = none)
    (hk : k.args t' = (p.malloc a).1) (hc : t.captureArgs.isSome → t'.captureArgs.isSome) :
    Local k own other i buff t' (p.malloc a).2 := by
  have hcap : ∀ c ∈ p.captures, if c.obj = i then
      t'.captureArgs.isSome ∧ getStrValFromJson buff ["data", "deviceId"] = some c.deviceId
      else other c := by
    intro c hm
    have := h.captures c hm
    split <;> simp_all
  cases a
  case none => exact ⟨h.fault, (hk.trans ha.symm : k.args t' = k.args t) ▸ h.owns, hcap⟩
  case some a =>
    simp only [Proc.malloc] at hk ⊢
    split at hk
    case isTrue hs =>
      rw [if_pos hs]
      exact ⟨h.fault, (hk.trans ha.symm : k.args t' = k.args t) ▸ h.owns, hcap⟩
    case isFalse hs =>
      rw [if_neg hs]
      refine ⟨h.fault, ?_, hcap⟩
      refine h.owns.acquire (a := ⟨p.incarnation, a⟩) (i := i) (fun hv => hs hv.right)
        (fun b hv => ⟨hv.left, ?_⟩) ⟨rfl, by simp⟩ fun j b hb => ?_
      case refine_1 =>
        simp only [Function.update_apply]
        split
        · rfl
        · exact hv.right
      case refine_2 =>
        rw [hk] at hb
        by_cases hj : j = i
        case pos => exact .inr ⟨hj, by simpa [hj, eq_comm] using hb⟩
        case neg => exact .inl (by simpa [hj] using hb)

theorem free (h : Local k own other i buff t p) (ha : k.args t = some b)
    (hk : k.args t' = none) (hc : ∀ c ∈ p.captures, c.obj = i → t'.captureArgs = t.captureArgs) :
    Local k own other i buff t' (p.free b) := by
  simp only [Proc.free, h.deref ha]
  constructor
  case fault => exact h.fault
  case owns =>
    refine h.owns.release {i} (fun b' hv hne => ⟨hv.left, ?_⟩) fun j b' hb => ?_
    case refine_1 =>
      -- Two blocks of one process differ in their addresses.
      have hb := (h.valid ha).left
      have hadr : b'.addr ≠ b.addr := fun he => hne i rfl <| by
        cases b
        cases b'
        simp_all [Proc.Valid]
      simpa [Function.update_apply, hadr] using hv.right
    case refine_2 =>
      rw [hk] at hb
      by_cases hj : j = i
      case pos => simp [hj] at hb
      case neg => exact ⟨by simpa [hj] using hb, hj⟩
  case captures =>
    intro c hm
    have := h.captures c hm
    split
    case isTrue hi  => simpa [hi, hc c hm hi] using this
    case isFalse hi => simpa [hi] using this

theorem playerStartPlay {ok : Bool} (h : Local k own other i buff t p) :
    Local k own other i buff t (p.playerStartPlay b ok) := by
  simp only [Proc.playerStartPlay]
  split
  case isFalse => exact h
  case isTrue =>
    refine ⟨h.fault, h.owns.mono (fun b' hv => ⟨hv.left, ?_⟩) fun _ _ => id, h.captures⟩
    simp only [Function.update_apply]
    split
    · rfl
    · exact hv.right

theorem gat1400StartCapture {c : Capture} (h : Local k own other i buff t p) (hi : c.obj = i)
    (ha : t.captureArgs.isSome)
    (hd : getStrValFromJson buff ["data", "deviceId"] = some c.deviceId) :
    Local k own other i buff t (p.gat1400StartCapture c) where
  fault := h.fault
  owns  := h.owns
  captures c' hm := by
    rcases List.mem_append.mp hm with hm | hm
    · exact h.captures c' hm
    · rw [List.mem_singleton.mp hm, if_pos hi]
      exact ⟨ha, hd⟩

theorem gat1400StopCapture {deviceId : CStr} (h : Local k own other i buff t p) :
    Local k own other i buff t (p.gat1400StopCapture deviceId) where
  fault := h.fault
  owns  := h.owns
  captures c hm := h.captures c (List.mem_of_mem_filter hm)

theorem rtspStart (h : Local .rtsp own other i buff t p) :
    Local .rtsp own other i buff (rtspStart out buff t p).1 (rtspStart out buff t p).2 := by
  have ha : Local .rtsp own other i buff
      { t with liveArgs := (if t.liveArgs = none then p.malloc out.malloc else (t.liveArgs, p)).1 }
      (if t.liveArgs = none then p.malloc out.malloc else (t.liveArgs, p)).2 := by
    by_cases hn : t.liveArgs = none
    case pos =>
      simp only [if_pos hn]
      exact h.malloc hn rfl id
    case neg => simpa [hn] using h
  simp only [Task.rtspStart]
  generalize (if t.liveArgs = none then p.malloc out.malloc else (t.liveArgs, p)) = r at ha ⊢
  obtain ⟨_ | b, p⟩ := r
  case none => exact ha
  case some =>
    simp only [ha.deref rfl]
    split
    case isTrue  => exact ha
    case isFalse => exact ha.playerStartPlay

theorem rtspStop (h : Local .rtsp own other i buff t p) :
    Local .rtsp own other i buff (rtspStop t p).1 (rtspStop t p).2 := by
  simp only [Task.rtspStop]
  split
  case h_1 => exact h
  case h_2 b hb =>
    rw [h.deref hb]
    exact h.free hb rfl fun _ _ _ => rfl

theorem gat1400Start (h : Local .gat1400 own other i buff t p) :
    Local .gat1400 own other i buff (gat1400Start out i buff t p).1
      (gat1400Start out i buff t p).2 := by
  have ha : Local .gat1400 own other i buff
      { t with captureArgs :=
          (if t.captureArgs = none then p.malloc out.malloc else (t.captureArgs, p)).1 }
      (if t.captureArgs = none then p.malloc out.malloc else (t.captureArgs, p)).2 := by
    by_cases hn : t.captureArgs = none
    case pos =>
      simp only [if_pos hn]
      exact h.malloc hn rfl (by simp [hn])
    case neg => simpa [hn] using h
  simp only [Task.gat1400Start]
  generalize (if t.captureArgs = none then p.malloc out.malloc else (t.captureArgs, p)) = r at ha ⊢
  split
  case isTrue => exact h
  case isFalse =>
    split
    case h_2 => exact h
    case h_1 hd _ =>
      split
      case isTrue  => exact ha
      case isFalse hs => exact ha.gat1400StartCapture rfl (Option.isSome_iff_ne_none.mpr hs) hd

theorem gat1400Stop (h : Local .gat1400 own other i buff t p) :
    Local .gat1400 own other i buff (gat1400Stop buff t p).1 (gat1400Stop buff t p).2 := by
  simp only [Task.gat1400Stop]
  split
  case isTrue => exact h
  case isFalse =>
    split
    case h_1 => exact h
    case h_2 deviceId hd =>
      split
      case h_1 => exact h.gat1400StopCapture
      case h_2 b hb =>
        -- The captures of this object are those of its device, which have been stopped.
        apply h.gat1400StopCapture.free hb rfl
        intro c hm hi
        have ⟨hm, hne⟩ := List.mem_filter.mp hm
        have hc := h.captures c hm
        rw [if_pos hi, hd] at hc
        exact absurd (Option.some.inj hc.right).symm (by simpa using hne)

theorem taskBeat (h : Local k own other i buff t p) :
    Local k own other i buff (k.taskBeat nowSec out i buff t p).1
      (k.taskBeat nowSec out i buff t p).2 := by
  cases k
  case rtsp =>
    simp only [Kind.taskBeat, rtspTaskBeat]
    split
    case isTrue =>
      split
      case isTrue => exact h.rtspStart.congr rfl rfl
      case isFalse =>
        split
        case isTrue =>
          have h : Local .rtsp own other i buff { t with liveRestart := t.liveRestart + 1 } p :=
            h.congr rfl rfl
          exact h.rtspStop.rtspStart.congr rfl rfl
        case isFalse => exact h
    case isFalse =>
      split
      case isTrue  => exact h.rtspStop.congr rfl rfl
      case isFalse => exact h
  case gat1400 =>
    simp only [Kind.taskBeat, gat1400TaskBeat]
    split
    case isTrue =>
      split
      case isTrue => exact h.gat1400Start.congr rfl rfl
      case isFalse =>
        split
        case isTrue  => exact h.congr rfl rfl
        case isFalse => exact h
    case isFalse =>
      split
      case isTrue  => exact h.gat1400Stop.congr rfl rfl
      case isFalse => exact h

theorem callback {r : TaskParams × Proc} (h : Local k own other i buff t p)
    (e : k.callback nowSec i t p = some r) : Local k own other i buff r.1 r.2 := by
  cases k
  case rtsp =>
    simp only [Kind.callback, rtspCallback] at e
    split at e
    case isFalse => cases e
    case isTrue =>
      cases e
      split
      · exact h.congr rfl rfl
      · exact h
  case gat1400 =>
    simp only [Kind.callback, gat1400CaptureCallback] at e
    split at e
    case isFalse => cases e
    case isTrue hc =>
      cases e
      simp only [List.any_eq_true, decide_eq_true_eq] at hc
      have ⟨c, hm, hi⟩ := hc
      have hs := h.captures c hm
      rw [if_pos hi] at hs
      have ⟨b, hb⟩ := Option.isSome_iff_exists.mp hs.left
      rw [hb, h.deref hb]
      exact h

end Local

def State.args (s : State) (i : Nat) : Option Block :=
  s.ap.objQueue[i]?.bind fun o => s.kind.args o.task

theorem State.args_eq_none {s : State} (h : ∀ o ∈ s.ap.objQueue, s.kind.args o.task = none)
    (i : Nat) : s.args i = none := by
  simp only [State.args, Option.bind_eq_none_iff]
  exact fun o ho => h o (List.mem_of_getElem? ho)

-- `rtsp_start`, `gat1400_start` and so on have used and freed only memory that was theirs.
def Safe (s : State) : Prop :=
  s.proc.fault = false

-- A process is started again only when no object points to a block of the one before.
def Released (s : State) : Label → Prop
  | .creatProcByPid tvSec _ =>
    tvSec - s.lastReboot ≥ 300 → ∀ o ∈ s.ap.objQueue, s.kind.args o.task = none
  | _ => True

def Captured (objQueue : List ObjParam) (c : Capture) : Prop :=
  ∃ o, objQueue[c.obj]? = some o ∧ o.task.captureArgs.isSome ∧
    getStrValFromJson o.originaldata ["data", "deviceId"] = some c.deviceId

instance (s : State) : (l : Label) → Decidable (Released s l)
  | .creatProcByPid _ _ => inferInstanceAs (Decidable (_ → ∀ o ∈ s.ap.objQueue, _))
  | .request _ _ _      => .isTrue trivial
  | .getEmptyProc _     => .isTrue trivial
  | .beatThread _       => .isTrue trivial
  | .procBeat _         => .isTrue trivial
  | .taskBeat _ _       => .isTrue trivial
  | .callback _         => .isTrue trivial
  | .crash              => .isTrue trivial

structure Owned (s : State) : Prop where
  safe     : Safe s
  owns     : s.live → Heap.Owns s.proc.Valid fun i b => s.args i = some b
  captures : ∀ c ∈ s.proc.captures, Captured s.ap.objQueue c

variable {s s' : State}

theorem kind_args_fixed (k : Kind) (o : ObjParam) :
    k.args (Slave.fixed o).task = k.args o.task := by
  cases k <;> rfl

theorem getElem?_of_fixed {q q' : List ObjParam} (hq : q'.map Slave.fixed = q.map Slave.fixed)
    (i : Nat) : q'[i]?.map Slave.fixed = q[i]?.map Slave.fixed := by
  rw [← List.getElem?_map, hq, List.getElem?_map]

theorem Owned.congr (h : Owned s) (hk : s'.kind = s.kind) (hp : s'.proc = s.proc)
    (hl : s'.live → s.live)
    (hq : s'.ap.objQueue.map Slave.fixed = s.ap.objQueue.map Slave.fixed) : Owned s' where
  safe := (congrArg Proc.fault hp).trans h.safe
  owns hv := by
    have ha : s'.args = s.args := funext fun i => by
      have := congrArg (Option.map fun o => s.kind.args o.task) (getElem?_of_fixed hq i)
      simp only [Option.map_map, Function.comp_def, kind_args_fixed] at this
      simp only [State.args, hk]
      cases hi : s'.ap.objQueue[i]? <;> cases hi' : s.ap.objQueue[i]? <;> simp_all
    exact hp ▸ ha ▸ h.owns (hl hv)
  captures c hc := by
    have ⟨o, ho, ha, hd⟩ := h.captures c (hp ▸ hc)
    have hm := getElem?_of_fixed hq c.obj
    rw [ho] at hm
    have ⟨o', ho', hf⟩ := Option.map_eq_some_iff.mp hm
    have ht : o'.task.captureArgs = o.task.captureArgs :=
      congrArg (fun o => o.task.captureArgs) hf
    have hb : o'.originaldata = o.originaldata := congrArg (fun o => o.originaldata) hf
    exact ⟨o', ho', ht ▸ ha, hb ▸ hd⟩

theorem Owned.task {f : Text → TaskParams → Proc → Option (TaskParams × Proc)} (h : Owned s)
    (hl : s.live) (e : s.task i f = some s')
    (hf : ∀ own other (o : ObjParam) r, Local s.kind own other i o.originaldata o.task s.proc →
      f o.originaldata o.task s.proc = some r →
      Local s.kind own other i o.originaldata r.1 r.2) : Owned s' := by
  simp only [State.task, bind, Option.bind_eq_some_iff] at e
  have ⟨o, ho, r, hr, e⟩ := e
  cases e
  have hi : i < s.ap.objQueue.length := (List.getElem?_eq_some_iff.mp ho).choose
  have ha : Function.update s.args i (s.kind.args o.task) = s.args := by
    simp [State.args, ho]
  have hloc : Local s.kind s.args (Captured s.ap.objQueue) i o.originaldata r.1 r.2 := by
    refine hf _ _ o r ⟨h.safe, ha.symm ▸ h.owns hl, fun c hc => ?_⟩ hr
    split
    case isTrue hj =>
      have ⟨o', ho', hs⟩ := h.captures c hc
      rw [hj, ho] at ho'
      exact Option.some.inj ho' ▸ hs
    case isFalse => exact h.captures c hc
  constructor
  case safe => exact hloc.fault
  case owns =>
    intro _
    convert hloc.owns using 1
    funext j
    by_cases hj : j = i
    case pos => simp [State.args, hj, hi]
    case neg => simp [State.args, hj, Ne.symm hj]
  case captures =>
    intro c hc
    have hs := hloc.captures c hc
    by_cases hj : c.obj = i
    case pos =>
      rw [if_pos hj] at hs
      exact ⟨_, by rw [hj]; exact List.getElem?_set_self hi, hs⟩
    case neg =>
      rw [if_neg hj] at hs
      simpa [Captured, List.getElem?_set, Ne.symm hj] using hs

theorem procBeat_args (k : Kind) (tvSec : Int) (t : TaskParams) :
    k.args (k.procBeat tvSec t).1 = k.args t ∧
      (k.procBeat tvSec t).1.captureArgs = t.captureArgs := by
  cases k <;> simp only [Kind.procBeat, rtspProcBeat, gat1400ProcBeat] <;> grind [Kind.args]

theorem procBeat_owned (h : Owned s) (hl : s.live) (e : procBeat i s = some s') : Owned s' := by
  simp only [procBeat, bind, Option.bind_eq_some_iff] at e
  have ⟨o, ho, e⟩ := e
  have hs : ∀ own other (o : ObjParam) r,
      Local s.kind own other i o.originaldata o.task s.proc →
      some ((s.kind.procBeat s.tvSec o.task).1, s.proc) = some r →
      Local s.kind own other i o.originaldata r.1 r.2 := by
    intro own other o r hloc hr
    cases hr
    have ⟨hk, hc⟩ := procBeat_args s.kind s.tvSec o.task
    exact hloc.congr hk hc
  split at e
  case isTrue =>
    have hd : Owned (delObjFromPidQue o.id s) := h.congr rfl rfl id rfl
    exact hd.task hl e hs
  case isFalse => exact h.task hl e hs

theorem Step.owned {l : Label} (h : Owned s) (hr : Released s l) (e : Step s l s') : Owned s' := by
  cases l <;> simp only [Step, exec, Option.ite_none_right_eq_some] at e
  case request url buf malloc =>
    have ⟨ht, e⟩ := e
    cases e
    refine h.congr rfl rfl id (Slave.rest_fixed ?_ ?_ buf malloc)
    · rintro rfl
      cases ht
    · rintro rfl
      cases ht
  case getEmptyProc j =>
    simp only [getEmptyProc, bind, Option.bind_eq_some_iff] at e
    obtain ⟨o, -, e⟩ := e
    split at e <;> cases e
    · exact h
    · exact h.congr rfl rfl id rfl
  case beatThread =>
    obtain ⟨-, e⟩ := e
    cases e
    exact h.congr rfl rfl id rfl
  case procBeat  => exact procBeat_owned h e.left.left e.right
  case taskBeat  =>
    apply h.task e.left.left e.right
    intro own other o r hloc hr
    cases hr
    exact hloc.taskBeat
  case callback  => exact h.task e.left e.right fun _ _ _ _ hloc hr => hloc.callback hr
  case crash =>
    obtain ⟨-, e⟩ := e
    cases e
    exact ⟨h.safe, by simp, by simp [Proc.exit]⟩
  case creatProcByPid tvSec gat1400Init =>
    obtain ⟨-, e⟩ := e
    cases e
    simp only [creatProcByPid]
    split
    case isTrue  => exact h.congr rfl rfl id rfl
    case isFalse hge =>
      have ha := hr (Int.not_lt.mp hge)
      refine ⟨h.safe, fun _ => .empty fun i b hb => ?_, by simp [Proc.start]⟩
      cases (State.args_eq_none ha i).symm.trans hb

-- A process uses only its own memory in every run in which it is started again only when its
-- objects have been released.
theorem safe_of_released {kind : Kind} {ap : AiotcParams} {handle : Bool}
    {tr : List (State × Label)}
    (hq : ∀ o ∈ ap.objQueue, kind.args o.task = none)
    (r : Run Step { kind := kind, ap := ap, proc := { handle := handle } } tr s)
    (hr : Run.Meets Released tr) : Run.Always Safe tr s := by
  have h : Owned { kind := kind, ap := ap, proc := { handle := handle } } := by
    refine ⟨rfl, fun _ => .empty fun i b hb => ?_, by simp⟩
    cases (State.args_eq_none hq i).symm.trans hb
  exact (r.always_of_meets (fun _ _ _ h hr e => Step.owned h hr e) h hr).mono fun _ h => h.safe

section

-- The body of a live object of a slave.
def rtspCamera : ObjParam where
  id := 5
  name := "gate"
  type := "camera"
  subtype := "rtsp"
  originaldata := some (.object [("id", .number 5), ("data", .object [("tcpEnable", .number 1),
    ("url", .string "rtsp://gate")])])

def rtspAp : AiotcParams where
  configArgs := ⟨0, 100, 100, 1000, 100⟩
  objQueue := [rtspCamera]

def id5 : Text :=
  some (.object [("id", .number 5)])

theorem safe_of_released_witness :
    ∃ tr s, Run Step { kind := .rtsp, ap := rtspAp } tr s ∧ Run.Always Safe tr s ∧
      s.proc.incarnation = 1 ∧ (s.args 0).isSome := by
  have ⟨s, r, hs⟩ := Run.exists_partialTrace exec
    [.request .streamStart id5 {}, .getEmptyProc 0, .beatThread 10, .taskBeat 0 ⟨some 64, true⟩,
      .callback 0, .request .streamStop id5 {}, .taskBeat 0 ⟨none, true⟩, .crash,
      .creatProcByPid 1000 true, .request .streamStart id5 {}, .taskBeat 0 ⟨some 64, true⟩]
    { kind := .rtsp, ap := rtspAp } (fun s => s.proc.incarnation = 1 ∧ (s.args 0).isSome)
    (by decide)
  refine ⟨_, s, r, safe_of_released (by decide) r ?_, by simpa using hs⟩
  decide

-- The process of a live object crashes and is started again. After 30 seconds without a frame it
-- stops the object, that is, it uses and frees the block of the process before.
theorem not_safe :
    ¬∀ (kind : Kind) (ap : AiotcParams) (handle : Bool) (tr : List (State × Label)) (s : State),
      (∀ o ∈ ap.objQueue, kind.args o.task = none) →
      Run Step { kind := kind, ap := ap, proc := { handle := handle } } tr s → Safe s := by
  intro h
  have ⟨s, r, hs⟩ := Run.exists_partialTrace exec
    [.request .streamStart id5 {}, .getEmptyProc 0, .beatThread 960, .taskBeat 0 ⟨some 64, true⟩,
      .crash, .creatProcByPid 1000 true, .taskBeat 0 ⟨some 64, true⟩]
    { kind := .rtsp, ap := rtspAp } (fun s => s.proc.fault) (by decide)
  have hf : Safe s := h .rtsp rtspAp false _ s (by decide) r
  exact absurd (hs.symm.trans hf) (by decide)

end

end Task
