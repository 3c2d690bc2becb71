import Aiotc.Preview.Process
import Aiotc.Preview.Threads

-- When the requests, the loop of the preview process and its threads agree on which thread runs and
-- on which memory is in use.

namespace PreviewHost

namespace State

def args (s : State) (i : Nat) : Ptr :=
  (s.task i).bind TaskParams.previewArgs

variable {s : State} {i : Nat} {t t' : TaskParams}

theorem args_of_task (h : s.task i = some t) : s.args i = t.previewArgs := by
  simp [args, h]

theorem args_setTask (h : s.task i = some t) :
    (s.setTask i t').args = Function.update s.args i t'.previewArgs := by
  funext j
  simp only [args, task_setTask h, Function.update_apply]
  split <;> rfl

end State

-- `previewArgs` of the object is NULL, or its block that of a backend without threads, and no
-- thread of the object is at its last lines, behind `shmFree`.
def Vacant (s : State) (i : Nat) : Prop :=
  (∀ x ∈ s.proc.shm.get (s.args i), x.ops.any Backend.threaded = false) ∧
  ∀ th ∈ s.proc.threads, th.obj = i → th.pc ≠ .null ∧ th.pc ≠ .last

-- The block of the object is that of a backend with threads only while `running` is set, and no
-- thread of the object is between `shmFree` and `previewArgs = NULL`.
def Running (s : State) (i : Nat) : Prop :=
  (∀ x ∈ s.proc.shm.get (s.args i), x.ops.any Backend.threaded → x.running ≠ 0) ∧
  ∀ th ∈ s.proc.threads, th.obj = i → th.pc ≠ .null

instance (s : State) (i : Nat) : Decidable (Vacant s i) :=
  inferInstanceAs (Decidable ((∀ _ ∈ _, _) ∧ ∀ _ ∈ _, _))

instance (s : State) (i : Nat) : Decidable (Running s i) :=
  inferInstanceAs (Decidable ((∀ _ ∈ _, _) ∧ ∀ _ ∈ _, _))

-- A pass starts an object, or takes it out of `pobjQueue`, only when its block is gone, and stops
-- it only when its thread has set `running`.
def Handshake (s : State) : Label → Prop
  | .procBeat i   => ∀ j ∈ taken i s, Vacant s j
  | .taskBeat i _ => ∀ t ∈ s.task i, (starts t → Vacant s i) ∧ (stops t → Running s i)
  | _             => True

instance (s : State) : (l : Label) → Decidable (Handshake s l)
  | .procBeat _     => inferInstanceAs (Decidable (∀ _ ∈ _, _))
  | .taskBeat _ _   => inferInstanceAs (Decidable (∀ _ ∈ _, _))
  | .thread _ _     => .isTrue trivial
  | .request _ _ _  => .isTrue trivial
  | .getEmptyProc _ => .isTrue trivial
  | .beatThread _   => .isTrue trivial

def Inv (s : State) : Prop :=
  s.proc.Inv s.args

variable {s s' : State} {i j : Nat}

theorem Inv.of_args {args : Nat → Ptr} {p : PreviewProc} (h : p.Inv args) (ha : s'.args = args)
    (hp : s'.proc = p) : Inv s' := by
  subst ha
  subst hp
  exact h

theorem rest_args {url : Url} (h : Task.isTask url) (buf : Text) (malloc : ObjMalloc) :
    State.args { s with ap := (Slave.rest url buf malloc s.ap).1 } = s.args := by
  funext i
  have ht := rest_task (f := TaskParams.previewArgs) (fun _ => rfl) h buf malloc s i
  simpa [State.args, Option.bind_map] using congrArg (Option.bind · id) ht

-- An object without a block has no thread.
theorem Vacant.not_live (h : Inv s) (hv : Vacant s i) :
    ∀ th ∈ s.proc.threads, th.obj = i → th.live = false := by
  intro th hm ho
  by_contra hl
  have ⟨hnull, hover⟩ := hv.right th hm ho
  have hu : th.inUse := PreviewThread.inUse_iff.mpr ⟨by simpa using hl, hnull, hover⟩
  exact absurd (h.not_inUse hv.left th hm ho) (by simp [hu])

-- A thread that has not set `running` is one that an object with a backend without threads, or with
-- `running` set, does not have.
theorem Running.not_starting (h : Inv s) (hr : Running s i) :
    ∀ th ∈ s.proc.threads, th.obj = i → th.starting = false := by
  intro th hm ho
  by_contra hst
  have hst : th.starting := by simpa using hst
  have hu : th.inUse := by
    simp only [PreviewThread.starting, List.mem_cons, List.not_mem_nil, or_false,
      decide_eq_true_eq] at hst
    rcases hst with hst | hst <;> simp [PreviewThread.inUse, hst]
  have hw := h.waits th hm hu
  obtain ⟨x, hx, hb⟩ := hw.block
  exact hr.left x (ho ▸ hx) hb ((hw.starting hst).right x hx)

theorem procBeat_inv (h : Inv s) (hc : Handshake s (.procBeat i)) (e : procBeat i s = some s') :
    Inv s' := by
  simp only [procBeat, bind, Option.bind_eq_some_iff] at e
  have ⟨o, ho, e⟩ := e
  cases e
  have ht : s.task i = some o.task := by simp [State.task, ho]
  have ha : (s.setTask i (Task.previewProcBeat s.tvSec o.task).1).args = s.args := by
    rw [State.args_setTask ht, Function.update_eq_self_iff, State.args_of_task ht]
    simp only [Task.previewProcBeat]
    repeat' split
    all_goals rfl
  exact .of_args (h.freeNode fun j hj => (hc j hj).not_live h) ha rfl

theorem taskBeat_inv {out : PreviewOutcome} (h : Inv s) (hc : Handshake s (.taskBeat i out))
    (e : taskBeat i out s = some s') : Inv s' := by
  simp only [taskBeat, bind, Option.bind_eq_some_iff] at e
  have ⟨t, ht, e⟩ := e
  cases e
  have ha := State.args_of_task ht
  have ⟨hstart, hstop⟩ := hc t ht
  by_cases hs : starts t
  case pos =>
    simp only [previwTaskBeat_starts hs]
    have hp := h.previewStart out ha ((hstart hs).not_live h)
    exact .of_args hp (State.args_setTask ht) rfl
  case neg =>
    by_cases hst : stops t
    case pos =>
      simp only [previwTaskBeat_stops hst]
      have hr := hstop hst
      have hf : ¬s.proc.Freed i := fun ⟨th, hm, ho, hp⟩ => hr.right th hm ho hp
      have hp := h.previewStop ha hf (hr.not_starting h)
      refine .of_args hp ((State.args_setTask ht).trans ?_) rfl
      rw [Function.update_eq_self_iff, ha]
      simp only [PreviewProc.previewTaskOps, PreviewProc.previewStop]
      repeat' split
      all_goals rfl
    case neg =>
      have hi := @previwTaskBeat_idle _ (PreviewProc.previewTaskOps out i) s.tvSec t s.proc
        (by simpa using hs) (by simpa using hst)
      refine .of_args h ((State.args_setTask ht).trans ?_) hi.right
      rw [Function.update_eq_self_iff, hi.left, ha]

theorem thread_inv {x : Progress} (h : Inv s) (e : thread j x s = some s') : Inv s' := by
  simp only [thread, bind, Option.bind_eq_some_iff] at e
  have ⟨th, hj, t, ht, ⟨th', previewArgs, shm⟩, hr, e⟩ := e
  cases e
  have ⟨hl, hy⟩ := h.lost_stray hj
  have hp := PreviewProc.Inv.step h hj ((State.args_of_task ht).symm ▸ hr)
  exact .of_args hp (State.args_setTask ht) (by simp only [hl, hy])

theorem Step.inv {l : Label} (h : Inv s) (hc : Handshake s l) (e : Step s l s') : Inv s' := by
  cases l <;> simp only [Step, exec, Option.ite_none_right_eq_some] at e
  case request url buf malloc =>
    have ⟨ht, e⟩ := e
    cases e
    exact .of_args h (rest_args ht buf malloc) rfl
  case getEmptyProc =>
    simp only [getEmptyProc, bind, Option.bind_eq_some_iff] at e
    obtain ⟨o, -, e⟩ := e
    cases e
    split
    · exact h
    · exact .of_args h rfl rfl
  case beatThread =>
    obtain ⟨-, e⟩ := e
    cases e
    exact .of_args h rfl rfl
  case procBeat => exact procBeat_inv h hc e.right
  case taskBeat => exact taskBeat_inv h hc e.right
  case thread   => exact thread_inv h e.right

-- In a run from before the first preview the threads keep to what is promised of them if the passes
-- wait for them.
theorem orderly_of_handshake {ap : AiotcParams} {tvSec : Int} {tr : List (State × Label)}
    (hq : ∀ o ∈ ap.objQueue, o.task.previewArgs = none)
    (r : Run Step { ap := ap, tvSec := tvSec } tr s) (hc : Run.Meets Handshake tr) :
    Run.Always (fun s => s.proc.Orderly) tr s := by
  have h : Inv { ap := ap, tvSec := tvSec } := by
    refine ⟨⟨by simp, rfl, rfl, rfl⟩, .empty ?_, by simp, by simp, by simp, by simp⟩
    rintro i b ⟨hb, -⟩
    simp only [State.args, State.task, Option.bind_eq_some_iff, Option.map_eq_some_iff] at hb
    obtain ⟨_, ⟨o, ho, rfl⟩, hb⟩ := hb
    simp [hq o (List.mem_of_getElem? ho)] at hb
  have ha := r.always_of_meets (I := Inv) (C := Handshake)
    (fun _ _ _ h hc e => Step.inv h hc e) h hc
  exact ha.mono fun _ h => h.toOrderly

section

-- The object is shown and stopped, and its node is freed after the thread has ended. Then it is
-- shown again.
def shownTwice : List Label := [
  .request .previewStart previewStartHls {}, .getEmptyProc 0, .taskBeat 0 {},
  .thread 0 .done, .thread 0 .done, .thread 0 .done, .thread 0 .call, .thread 0 .ret,
  .thread 0 .done, .thread 0 .done, .thread 0 .done, .thread 0 .done, .thread 0 .done,
  .request .previewStop id3 {}, .taskBeat 0 {}, .thread 0 .done, .thread 0 .done,
  .thread 0 .done, .thread 0 .done, .thread 0 .done, .thread 0 .done, .procBeat 0,
  .request .previewStart previewStartHls {}, .getEmptyProc 0, .taskBeat 0 {}, .thread 1 .done]

theorem orderly_of_handshake_witness :
    ∃ tr s, Run Step { ap := slaveAp, tvSec := 10 } tr s ∧
      Run.Always (fun s => s.proc.Orderly) tr s ∧ s.args 0 = some 1 ∧
      s.proc.threads.map PreviewThread.pc = [.ended, .running] := by
  have ⟨s, r, hs⟩ := Run.exists_partialTrace exec shownTwice { ap := slaveAp, tvSec := 10 }
    (fun s => s.args 0 = some 1 ∧ s.proc.threads.map PreviewThread.pc = [.ended, .running])
    (by decide)
  exact ⟨_, s, r, orderly_of_handshake (by decide) r (by decide), by simpa using hs⟩

-- The stop overtakes the thread, which then sets `running`. Not before `previewInit` finds that the
-- setting is empty it is taken back.
theorem not_orderly :
    ¬∀ (ap : AiotcParams) (tvSec : Int) (tr : List (State × Label)) (s : State),
      (∀ o ∈ ap.objQueue, o.task.previewArgs = none) →
      Run Step { ap := ap, tvSec := tvSec } tr s → s.proc.Orderly := by
  intro h
  have ⟨s, r, hs⟩ := Run.exists_partialTrace exec
    [.request .previewStart previewStartHls {}, .getEmptyProc 0, .taskBeat 0 {},
      .request .previewStop id3 {}, .taskBeat 0 {}, .thread 0 .done, .thread 0 .done]
    { ap := slaveAp, tvSec := 10 } (fun s => s.proc.lost) (by decide)
  have hl := (h slaveAp 10 _ s (by decide) r).lost
  exact absurd (hs.symm.trans hl) (by decide)

end

end PreviewHost
