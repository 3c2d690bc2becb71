import Aiotc.Preview.Process

-- Which backend shows an object once the loop of the preview process has seen its setting.

namespace PreviewProc

variable {p : PreviewProc} {t : TaskParams} {out : PreviewOutcome} {i : Nat}

theorem started_start {b : Backend} {create : Bool} :
    (p.start b create i).started = Function.update p.started i (some b) := by
  simp only [start]
  split <;> rfl

theorem started_stop {b : Backend} :
    (p.stop b i t).started = Function.update p.started i none := by
  simp only [stop]
  split <;> rfl

theorem started_previewStart
    (h : (Backend.named t.preview).isSome → t.previewArgs = none → out.malloc) :
    (previewStart out i t p).2.started =
      ((Backend.named t.preview).map fun b => Function.update p.started i (some b)).getD
        p.started := by
  simp only [previewStart, initPreviewOps, PreviewShm.shmMalloc]
  cases hb : Backend.named t.preview
  case none =>
    repeat' split
    all_goals simp_all [setStopped]
  case some b =>
    by_cases hn : t.previewArgs = none
    case pos => simp [hn, h (by simp [hb]) hn, started_start, setStopped]
    case neg => simp [hn, started_start, setStopped]

theorem started_previewStop
    (h : ∀ b ∈ p.started i, (p.shm.get t.previewArgs).bind PreviewParams.ops = some b) :
    (previewStop i t p).2.started = Function.update p.started i none := by
  have hn : (p.shm.get t.previewArgs).bind PreviewParams.ops = none →
      Function.update p.started i none = p.started := by
    intro ho
    rw [Function.update_eq_self_iff, eq_comm, Option.eq_none_iff_forall_ne_some]
    intro b hb
    simp [ho] at h
    exact h b hb
  simp only [previewStop]
  split
  case isTrue ha => exact (hn (by simp [ha, PreviewShm.get])).symm
  case isFalse =>
    split
    case h_1 ho => exact (hn ho).symm
    case h_2    => exact started_stop

end PreviewProc

namespace PreviewHost

-- After two passes since its setting was changed an object is shown by the backend that the setting
-- names.
def Converged (s : State) : Prop :=
  ∀ i, ∀ preview ∈ s.preview i, 2 ≤ s.passes i → s.proc.started i = Backend.named preview

-- A request gives an object another type only while `previewTaskBeat` is 0, that is before it is
-- started and after a pass has stopped it. A pass that starts an object gets the memory, and one
-- that stops an object finds the block with the operations of what was started.
def Following (s : State) : Label → Prop
  | .request url buf malloc => ∀ i < s.ap.objQueue.length, ∀ t ∈ s.task i,
    ∀ t' ∈ (request url buf malloc s).task i,
      t'.preview ≠ t.preview → t'.preview.length > 0 → t.previewTaskBeat = 0
  | .taskBeat i out => ∀ t ∈ s.task i,
    (starts t → (Backend.named t.preview).isSome → t.previewArgs = none → out.malloc) ∧
      (stops t → ∀ b ∈ s.proc.started i,
        (s.proc.shm.get t.previewArgs).bind PreviewParams.ops = some b)
  | _               => True

instance (s : State) : (l : Label) → Decidable (Following s l)
  | .request _ _ _  => inferInstanceAs (Decidable (∀ i < _, ∀ _ ∈ _, ∀ _ ∈ _, _))
  | .taskBeat _ _   => inferInstanceAs (Decidable (∀ _ ∈ _, _))
  | .getEmptyProc _ => .isTrue trivial
  | .beatThread _   => .isTrue trivial
  | .procBeat _     => .isTrue trivial
  | .thread _ _     => .isTrue trivial

-- An object that has no beat is shown by nothing, and one that has a beat and a setting by what the
-- setting names.
structure Shown (started : Option Backend) (passes : Nat) (t : TaskParams) : Prop where
  beat    : 0 ≤ t.previewTaskBeat
  stopped : t.previewTaskBeat = 0 → started = none
  kept    : t.preview.length > 0 → t.previewTaskBeat ≠ 0 → started = Backend.named t.preview
  named   : 1 ≤ passes → started = Backend.named t.preview

structure InvBackend (s : State) : Prop where
  clock : 0 < s.tvSec
  shown : ∀ i, ∀ t ∈ s.task i, Shown (s.proc.started i) (s.passes i) t

theorem preview_previwTaskBeat {σ : Type} {ops : TaskOps σ} {nowSec : Int} {t : TaskParams}
    {p : σ} :
    (Loop.previwTaskBeat ops nowSec t p).1.preview = t.preview := by
  have hs : (ops.start t p).1.preview = t.preview :=
    (congrArg TaskParams.preview (ops.start_withoutArgs t p) :)
  have ht : (ops.stop t p).1.preview = t.preview :=
    (congrArg TaskParams.preview (ops.stop_withoutArgs t p) :)
  simp only [Loop.previwTaskBeat]
  repeat' split
  all_goals simp only [hs, ht]

variable {s s' : State} {i j : Nat} {out : PreviewOutcome}

theorem InvBackend.converged (h : InvBackend s) : Converged s := by
  intro i preview hp hle
  simp only [State.preview, Option.mem_def, Option.map_eq_some_iff] at hp
  obtain ⟨t, ht, rfl⟩ := hp
  exact (h.shown i t ht).named (by omega)

-- What leaves the settings, the beats and what is started alone.
theorem InvBackend.congr (h : InvBackend s) (hc : s.tvSec ≤ s'.tvSec)
    (ht : ∀ i, ∀ t' ∈ s'.task i, ∃ t ∈ s.task i, t'.previewTaskBeat = t.previewTaskBeat ∧
      (t'.preview = t.preview ∨ t'.preview.length = 0 ∨ t.previewTaskBeat = 0) ∧
      (1 ≤ s'.passes i → 1 ≤ s.passes i ∧ t'.preview = t.preview))
    (hs : s'.proc.started = s.proc.started) : InvBackend s' where
  clock       := Int.lt_of_lt_of_le h.clock hc
  shown i t' hm := by
    have ⟨t, ht, hb, hk, hp⟩ := ht i t' hm
    have hi := h.shown i t ht
    rw [hs]
    refine ⟨hb ▸ hi.beat, fun h₀ => hi.stopped (hb ▸ h₀), fun hl hne => ?_, fun hle => ?_⟩
    case refine_1 =>
      rcases hk with hk | hk | hk
      · rw [hk]
        exact hi.kept (hk ▸ hl) (hb ▸ hne)
      · omega
      · exact absurd (hb.trans hk) hne
    case refine_2 =>
      rw [(hp hle).right]
      exact hi.named (hp hle).left

theorem InvBackend.setTask {t t' : TaskParams} {pobjQueue : List Nat} {proc : PreviewProc}
    (h : InvBackend s) (ht : s.task i = some t) (hb : t'.previewTaskBeat = t.previewTaskBeat)
    (hp : t'.preview = t.preview) (hs : proc.started = s.proc.started) :
    InvBackend { s.setTask i t' with pobjQueue := pobjQueue, proc := proc } := by
  refine h.congr (Int.le_refl _) (fun j u hu => ?_) hs
  have hu : (s.setTask i t').task j = some u := hu
  rw [task_setTask ht] at hu
  split at hu
  case isTrue hj =>
    cases hu
    exact ⟨t, hj ▸ ht, hb, .inl hp, fun hle => ⟨hle, hp⟩⟩
  case isFalse => exact ⟨u, hu, rfl, .inl rfl, fun hle => ⟨hle, rfl⟩⟩

theorem named_of_empty {preview : CStr} (h : preview.length = 0) :
    Backend.named preview = none := by
  rw [List.length_eq_zero_iff.mp h]
  rfl

section

variable {p : PreviewProc} {t : TaskParams} {nowSec : Int} {passes : Nat}

abbrev pass (out : PreviewOutcome) (i : Nat) (nowSec : Int) (t : TaskParams) (p : PreviewProc) :
    TaskParams × PreviewProc :=
  Loop.previwTaskBeat (PreviewProc.previewTaskOps out i) nowSec t p

-- A pass that starts a preview.
theorem Shown.start (h : Shown (p.started i) passes t) (hn : 0 < nowSec) (hst : starts t)
    (hs : (Backend.named t.preview).isSome → t.previewArgs = none → out.malloc) :
    (pass out i nowSec t p).2.started = Function.update p.started i (Backend.named t.preview) ∧
      Shown (Backend.named t.preview) (passes + 1) (pass out i nowSec t p).1 := by
  have hp : (pass out i nowSec t p).1.preview = t.preview := preview_previwTaskBeat
  have hq : pass out i nowSec t p = _ := previwTaskBeat_starts hst
  simp only [starts, decide_eq_true_eq] at hst
  refine ⟨?_, ?_, ?_, fun _ _ => by rw [hp], fun _ => by rw [hp]⟩
  case refine_1 =>
    simp only [hq, PreviewProc.previewTaskOps]
    rw [PreviewProc.started_previewStart hs]
    cases hb : Backend.named t.preview
    case none   => exact (Function.update_eq_self_iff.mpr (h.stopped hst.right).symm).symm
    case some b => rfl
  case refine_2 =>
    simp only [hq]
    exact Int.le_of_lt hn
  case refine_3 =>
    simp only [hq]
    exact fun h₀ => absurd h₀ (Int.ne_of_gt hn)

-- A pass that stops one.
theorem Shown.stop (hst : stops t)
    (ht : ∀ b ∈ p.started i, (p.shm.get t.previewArgs).bind PreviewParams.ops = some b) :
    (pass out i nowSec t p).2.started = Function.update p.started i none ∧
      Shown none passes (pass out i nowSec t p).1 := by
  have hp : (pass out i nowSec t p).1.preview = t.preview := preview_previwTaskBeat
  have hq : pass out i nowSec t p = _ := previwTaskBeat_stops hst
  simp only [stops, decide_eq_true_eq] at hst
  refine ⟨?_, ?_, fun _ => rfl, fun hl => ?_, fun _ => ?_⟩
  case refine_1 =>
    simp only [hq, PreviewProc.previewTaskOps]
    exact PreviewProc.started_previewStop ht
  case refine_2 => simp [hq]
  case refine_3 =>
    rw [hp] at hl
    omega
  case refine_4 => rw [hp, named_of_empty hst.left]

-- A pass that does neither.
theorem Shown.idle (h : Shown (p.started i) passes t) (hn : 0 < nowSec)
    (hst : starts t = false) (hsp : stops t = false) :
    (pass out i nowSec t p).2 = p ∧
      Shown (p.started i) (passes + 1) (pass out i nowSec t p).1 := by
  have hp : (pass out i nowSec t p).1.preview = t.preview := preview_previwTaskBeat
  refine ⟨(previwTaskBeat_idle hst hsp).right, ?_⟩
  simp only [starts, stops, decide_eq_false_iff_not, not_and] at hst hsp
  by_cases hl : t.preview.length > 0
  case pos =>
    have hle : 0 ≤ Loop.preview.beat t := h.beat
    have hne : Loop.preview.beat t ≠ 0 := hst hl
    have hb : (pass out i nowSec t p).1.previewTaskBeat = _ :=
      Loop.beat_taskBeat (l := .preview) (by simpa [Loop.flag] using hl)
    have hpos : 0 < (pass out i nowSec t p).1.previewTaskBeat := by
      rw [hb]
      split <;> omega
    have hk : p.started i = Backend.named (pass out i nowSec t p).1.preview := by
      rw [hp]
      exact h.kept hl hne
    exact ⟨Int.le_of_lt hpos, fun h₀ => absurd h₀ (Int.ne_of_gt hpos), fun _ _ => hk, fun _ => hk⟩
  case neg =>
    have h₀ := Nat.eq_zero_of_not_pos hl
    have hb : (pass out i nowSec t p).1.previewTaskBeat = _ :=
      Loop.beat_taskBeat_of_not_flag (l := .preview) (by simpa [Loop.flag] using h₀)
    have hle := h.beat
    have hbt : t.previewTaskBeat = 0 := by
      have := hsp h₀
      omega
    simp only [Loop.beat, hbt, Int.lt_irrefl, if_false] at hb
    refine ⟨Int.le_of_eq hb.symm, fun _ => h.stopped hbt, fun hlp => ?_, fun _ => ?_⟩
    case refine_1 =>
      rw [hp] at hlp
      exact absurd hlp hl
    case refine_2 =>
      rw [hp, named_of_empty h₀]
      exact h.stopped hbt

-- Of what a pass does to an object the setting of which it has seen.
theorem Shown.taskBeat (h : Shown (p.started i) passes t) (hn : 0 < nowSec)
    (hs : starts t → (Backend.named t.preview).isSome → t.previewArgs = none → out.malloc)
    (ht : stops t → ∀ b ∈ p.started i, (p.shm.get t.previewArgs).bind PreviewParams.ops = some b) :
    ∃ x, (pass out i nowSec t p).2.started = Function.update p.started i x ∧
      Shown x (passes + 1) (pass out i nowSec t p).1 := by
  cases hst : starts t
  case true => exact ⟨_, h.start hn hst (hs hst)⟩
  case false =>
    cases hsp : stops t
    case true  => exact ⟨_, Shown.stop hsp (ht hsp)⟩
    case false =>
      obtain ⟨hp, hi⟩ := h.idle hn hst hsp
      exact ⟨_, by rw [hp, Function.update_eq_self], hi⟩

end

theorem taskBeat_invBackend (h : InvBackend s) (hc : Following s (.taskBeat i out))
    (e : taskBeat i out s = some s') : InvBackend s' := by
  simp only [taskBeat, bind, Option.bind_eq_some_iff] at e
  have ⟨t, ht, e⟩ := e
  cases e
  have ⟨hs, hst⟩ := hc t ht
  have ⟨x, hx, hsh⟩ := (h.shown i t ht).taskBeat h.clock hs hst
  refine ⟨h.clock, fun j t' hm => ?_⟩
  have hm : (s.setTask i _).task j = some t' := hm
  simp only [task_setTask ht] at hm
  split at hm
  case isTrue hj =>
    subst hj
    cases hm
    simpa [hx] using hsh
  case isFalse hj => simpa [hx, hj] using h.shown j t' hm

-- A request leaves the beats as they are. Where it changes a setting, the passes are counted anew.
theorem request_invBackend {url : Url} {buf : Text} {malloc : ObjMalloc} (h : InvBackend s)
    (ht : Task.isTask url) (hc : Following s (.request url buf malloc)) :
    InvBackend (request url buf malloc s) := by
  refine h.congr (Int.le_refl _) (fun i t' ht' => ?_) rfl
  have hf := rest_task (f := TaskParams.previewTaskBeat) (fun _ => rfl) ht buf malloc s i
  have ht' : State.task i { s with ap := (Slave.rest url buf malloc s.ap).1 } = some t' := ht'
  rw [ht'] at hf
  have ⟨t, hi, hb⟩ := Option.map_eq_some_iff.mp hf.symm
  refine ⟨t, hi, hb.symm, ?_, fun hle => ?_⟩
  case refine_1 =>
    have hlt : i < s.ap.objQueue.length := by
      have ⟨o, ho, _⟩ := Option.map_eq_some_iff.mp hi
      exact (List.getElem?_eq_some_iff.mp ho).choose
    by_cases hp : t'.preview = t.preview
    case pos => exact .inl hp
    case neg =>
      by_cases hl : t'.preview.length > 0
      case pos => exact .inr (.inr (hc i hlt t hi t' ht' hp hl))
      case neg => exact .inr (.inl (Nat.eq_zero_of_not_pos hl))
  case refine_2 =>
    simp only [request] at hle
    split at hle
    case isTrue hp =>
      simp only [State.preview, ht', hi, Option.map_some, Option.some.injEq] at hp
      exact ⟨hle, hp⟩
    case isFalse => simp at hle

theorem previewProcBeat_same {nowSec : Int} {t : TaskParams} :
    (Task.previewProcBeat nowSec t).1.previewTaskBeat = t.previewTaskBeat ∧
      (Task.previewProcBeat nowSec t).1.preview = t.preview := by
  simp only [Task.previewProcBeat]
  repeat' split
  all_goals exact ⟨rfl, rfl⟩

theorem Step.invBackend {l : Label} (h : InvBackend s) (hc : Following s l) (e : Step s l s') :
    InvBackend s' := by
  cases l <;> simp only [Step, exec, Option.ite_none_right_eq_some] at e
  case request url buf malloc =>
    obtain ⟨ht, e⟩ := e
    cases e
    exact request_invBackend h ht hc
  case getEmptyProc =>
    simp only [getEmptyProc, bind, Option.bind_eq_some_iff] at e
    obtain ⟨o, -, e⟩ := e
    cases e
    split
    · exact h
    · refine h.congr (Int.le_refl _) (fun i t ht => ?_) rfl
      exact ⟨t, ht, rfl, .inl rfl, fun hle => ⟨hle, rfl⟩⟩
  case beatThread =>
    obtain ⟨ht, e⟩ := e
    cases e
    exact h.congr ht (fun i t ht => ⟨t, ht, rfl, .inl rfl, fun hle => ⟨hle, rfl⟩⟩) rfl
  case procBeat i =>
    obtain ⟨-, e⟩ := e
    simp only [procBeat, bind, Option.bind_eq_some_iff] at e
    obtain ⟨o, ho, e⟩ := e
    cases e
    have hi : s.task i = some o.task := by simp [State.task, ho]
    exact h.setTask hi previewProcBeat_same.left previewProcBeat_same.right rfl
  case taskBeat => exact taskBeat_invBackend h hc e.right
  case thread j x =>
    obtain ⟨-, e⟩ := e
    simp only [thread, bind, Option.bind_eq_some_iff] at e
    obtain ⟨th, hj, t, ht, r, hr, e⟩ := e
    cases e
    exact h.setTask ht rfl rfl rfl

-- In every run in which a type is changed by a stop and a start with a pass between them, two
-- passes are enough for every batch of requests.
theorem converged_of_following {ap : AiotcParams} {tvSec : Int} {tr : List (State × Label)}
    (hq : ∀ o ∈ ap.objQueue, o.task.previewTaskBeat = 0) (ht : 0 < tvSec)
    (r : Run Step { ap := ap, tvSec := tvSec } tr s) (hc : Run.Meets Following tr) :
    Run.Always Converged tr s := by
  have h : InvBackend { ap := ap, tvSec := tvSec } := by
    refine ⟨ht, fun i t hi => ?_⟩
    obtain ⟨o, ho, rfl⟩ := Option.map_eq_some_iff.mp hi
    have hb := hq o (List.mem_of_getElem? ho)
    exact ⟨Int.le_of_eq hb.symm, fun _ => rfl, fun _ hne => absurd hb hne,
      fun hle => absurd hle (Nat.not_succ_le_zero 0)⟩
  exact (r.always_of_meets (fun _ _ _ h hc e => e.invBackend h hc) h hc).mono fun _ h => h.converged

section

def previewStartHttpFlv : Text :=
  some (.object [("id", .number 3), ("type", .string "http-flv")])

-- The type is changed by a stop and a start with a pass between them.
theorem converged_of_following_witness :
    ∃ tr s, Run Step { ap := slaveAp, tvSec := 10 } tr s ∧ Run.Always Converged tr s ∧
      s.passes 0 = 2 ∧ s.proc.started 0 = some .httpFlv := by
  have ⟨s, r, hs⟩ := Run.exists_partialTrace exec
    [.request .previewStart previewStartHls {}, .getEmptyProc 0, .taskBeat 0 {}, .taskBeat 0 {},
      .request .previewStop id3 {}, .taskBeat 0 {}, .request .previewStart previewStartHttpFlv {},
      .taskBeat 0 {}, .taskBeat 0 {}]
    { ap := slaveAp, tvSec := 10 }
    (fun s => s.passes 0 = 2 ∧ s.proc.started 0 = some .httpFlv) (by decide)
  refine ⟨_, s, r, converged_of_following (by decide) (by decide) r ?_, by simpa using hs⟩
  decide

-- A start of another type while the object is shown is never seen.
theorem not_converged :
    ¬∀ (ap : AiotcParams) (tvSec : Int) (tr : List (State × Label)) (s : State),
      (∀ o ∈ ap.objQueue, o.task.previewTaskBeat = 0) → 0 < tvSec →
      Run Step { ap := ap, tvSec := tvSec } tr s → Converged s := by
  intro h
  have ⟨s, r, hs⟩ := Run.exists_partialTrace exec
    [.request .previewStart previewStartHls {}, .getEmptyProc 0, .taskBeat 0 {},
      .request .previewStart previewStartHttpFlv {}, .taskBeat 0 {}, .taskBeat 0 {}]
    { ap := slaveAp, tvSec := 10 }
    (fun s => s.preview 0 = some "http-flv" ∧ s.passes 0 = 2 ∧ s.proc.started 0 = some .hls)
    (by decide)
  simp only [decide_eq_true_eq] at hs
  have ⟨hp, hle, hb⟩ := hs
  have := h slaveAp 10 _ s (by decide) (by decide) r 0 "http-flv" hp (Nat.le_of_eq hle.symm)
  rw [hb] at this
  exact absurd this (by decide)

end

end PreviewHost
