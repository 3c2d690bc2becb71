import Mathlib.Data.List.Perm.Basic
import Aiotc.Library.Run
import Aiotc.Pids.Basic

-- Which processes the table describes.

open Queue

namespace Pids

-- The processes that are not over: those that live, and those with whose exit `creatProcByPid` is
-- still to be done.
def State.Unhandled (s : State) (pid : Int) : Prop :=
  pid ∈ s.zombies ∨ ∃ r ∈ s.restarting, r.oldPid = pid

-- The entries of the table describe such processes, hence live ones when all exits are handled,
-- and such are the processes that `getEmptyProc` finds.
structure Accounted (s : State) : Prop where
  entry        : ∀ ops ∈ s.pidQueue, ops.pid ∈ s.live ∨ s.Unhandled ops.pid
  live         : (∀ pid, ¬s.Unhandled pid) → ∀ ops ∈ s.pidQueue, ops.pid ∈ s.live
  getEmptyProc : ∀ obj name subName tmp ops, searchProc obj name subName tmp s.pidQueue = some ops →
    ops.pid ∈ s.live ∨ s.Unhandled ops.pid

-- The pids that are still to be written to the table.
def State.pending (s : State) : List Int :=
  s.creating.map (·.ops.pid) ++ s.restarting.map Restarting.pid

-- The exit of a child is handled after its pid is in the table, and not as that of a process that
-- was restarted less than 300 seconds ago and did not stop by itself.
def Recorded (s : State) : Label → Prop
  | .childQuit quitPid tvSec _ => quitPid ∉ s.pending ∧
    ∀ ops, getOpsByPid quitPid s.pidQueue = some ops → ops.running ≠ 0 →
      300 ≤ tvSec - ops.lastReboot
  | _                          => True

structure Inv (s : State) : Prop where
  entry   : ∀ ops ∈ s.pidQueue, ops.pid ∈ s.live ∨ s.Unhandled ops.pid
  nodup   : (s.pidQueue.map PidOps.pid ++ s.pending).Nodup
  pending : ∀ pid ∈ s.pending, pid ∈ s.live ∨ pid ∈ s.zombies

theorem Inv.accounted {s : State} (h : Inv s) : Accounted s where
  entry := h.entry
  live hu ops ho := (h.entry ops ho).resolve_right (hu _)
  getEmptyProc obj name subName tmp ops ho := by
    apply h.entry ops
    rcases Option.or_eq_some_iff.mp ho with ho | ⟨-, ho⟩
    · exact (searchFromQueue_some ho).left
    · exact (searchFromQueue_some ho).left

variable {s s' : State} {pid : Int} {f : PidOps → PidOps}

theorem Inv.setKeyCache {keyCache : List Int} (h : Inv s) : Inv (s.setKeyCache keyCache) :=
  ⟨h.entry, h.nodup, h.pending⟩

-- Where the pids of the entries stay the same.
theorem Inv.modify (h : Inv s) (pid : Int) (hf : ∀ ops, (f ops).pid = ops.pid) :
    Inv (s.modify pid f) := by
  have hp : (s.modify pid f).pidQueue.map PidOps.pid = s.pidQueue.map PidOps.pid :=
    map_modifyFound hf
  constructor
  case entry =>
    intro ops ho
    have hm : ops.pid ∈ s.pidQueue.map PidOps.pid := hp ▸ List.mem_map_of_mem ho
    have ⟨ops', ho', he⟩ := List.mem_map.mp hm
    exact he ▸ h.entry ops' ho'
  case nodup   => exact (congrArg (· ++ s.pending) hp) ▸ h.nodup
  case pending => exact h.pending

theorem Inv.act (h : Inv s) (e : s.act pid f = some s') (hf : ∀ ops, (f ops).pid = ops.pid) :
    Inv s' := by
  simp only [State.act] at e
  split at e <;> cases e
  exact h.modify _ hf

theorem fork_some (e : s.fork pid = some s') :
    (0 < pid ∧ pid ∉ s.live ∧ ¬s.Unhandled pid) ∧ s' = { s with live := s.live ++ [pid] } := by
  simp only [State.fork] at e
  split at e <;> cases e
  case isTrue hf =>
    have ⟨h₀, hl, hz, hr⟩ := hf
    refine ⟨⟨h₀, hl, ?_⟩, rfl⟩
    rintro (h | ⟨r, hm, he⟩)
    · exact hz h
    · exact hr (List.mem_map.mpr ⟨r, hm, he⟩)

inductive CreateStep (name subName taskName : CStr) (pid : Int) (obj : Option ObjParam)
    (s : State) : State → Prop
  | unknown : CreateStep name subName taskName pid obj s s
  | refused (keyCache : List Int) :
    CreateStep name subName taskName pid obj s (s.setKeyCache keyCache)
  | fork (ops : PidOps) (msgKey : Int) (keyCache : List Int) :
    getOpsByName name subName taskName = some ops → 0 < pid → pid ∉ s.live → ¬s.Unhandled pid →
    CreateStep name subName taskName pid obj s
      { s.setKeyCache keyCache with
        live := s.live ++ [pid]
        creating := s.creating ++ [⟨{ ops with msgKey := msgKey, pid := pid }, obj⟩] }

theorem createProcess_step {name subName taskName : CStr} {procInit : Bool} {obj : Option ObjParam}
    (e : createProcess name subName taskName procInit pid obj s = some s') :
    CreateStep name subName taskName pid obj s s' := by
  simp only [createProcess] at e
  split at e
  case h_1 =>
    cases e
    exact .unknown
  case h_2 ops ho =>
    split at e
    case isTrue =>
      cases e
      exact .refused _
    case isFalse =>
      have ⟨_, hf, e⟩ := Option.bind_eq_some_iff.mp e
      obtain ⟨⟨h₀, hl, hu⟩, rfl⟩ := fork_some hf
      cases e
      exact .fork ops _ _ ho h₀ hl hu

inductive RecreateStep (oldPid tvSec pid : Int) (s : State) : State → Prop
  | unknown : getOpsByPid oldPid s.pidQueue = none → RecreateStep oldPid tvSec pid s s
  | stopped : RecreateStep oldPid tvSec pid s (delOpsByPid oldPid s)
  | early (ops : PidOps) : getOpsByPid oldPid s.pidQueue = some ops → ops.running ≠ 0 →
    tvSec - ops.lastReboot < 300 → RecreateStep oldPid tvSec pid s s
  | fork : 0 < pid → pid ∉ s.live → ¬s.Unhandled pid → RecreateStep oldPid tvSec pid s
      { s with
        live := s.live ++ [pid]
        restarting := s.restarting ++ [⟨oldPid, pid, tvSec⟩] }

theorem creatProcByPid_step {oldPid tvSec : Int}
    (e : creatProcByPid oldPid tvSec pid s = some s') : RecreateStep oldPid tvSec pid s s' := by
  simp only [creatProcByPid] at e
  split at e
  case h_1 hn =>
    cases e
    exact .unknown hn
  case h_2 ops hops =>
    split at e
    case isTrue =>
      cases e
      exact .stopped
    case isFalse hrun =>
      split at e
      case isTrue hlt =>
        cases e
        exact .early ops hops hrun hlt
      case isFalse =>
        have ⟨_, hf, e⟩ := Option.bind_eq_some_iff.mp e
        obtain ⟨⟨h₀, hl, hu⟩, rfl⟩ := fork_some hf
        cases e
        exact .fork h₀ hl hu

-- The handler of a child's exit.
theorem childQuit_some {quitPid tvSec : Int} (e : childQuit quitPid tvSec pid s = some s') :
    quitPid ∈ s.zombies ∧ ∃ s₁, RecreateStep quitPid tvSec pid s s₁ ∧
      s' = { s₁ with zombies := s₁.zombies.erase quitPid } := by
  have ⟨hz, e⟩ := Option.ite_none_right_eq_some.mp e
  have ⟨s₁, hc, e⟩ := Option.bind_eq_some_iff.mp e
  cases e
  exact ⟨hz, s₁, creatProcByPid_step hc, rfl⟩

-- The pid of a new process is neither in the table nor will it be written there.
theorem Inv.fresh (h : Inv s) (hl : pid ∉ s.live) (hu : ¬s.Unhandled pid) :
    pid ∉ s.pidQueue.map PidOps.pid ++ s.pending := by
  intro hm
  rcases List.mem_append.mp hm with hm | hm
  · obtain ⟨ops, ho, rfl⟩ := List.mem_map.mp hm
    exact (h.entry ops ho).elim hl hu
  · exact (h.pending pid hm).elim hl fun hz => hu (.inl hz)

theorem Inv.fork (h : Inv s) (hl : pid ∉ s.live) (hu : ¬s.Unhandled pid)
    (hq : s'.pidQueue = s.pidQueue) (hl' : s'.live = s.live ++ [pid])
    (hz : s'.zombies = s.zombies) (hu' : ∀ p, s.Unhandled p → s'.Unhandled p)
    (hp : s'.pending.Perm (pid :: s.pending)) : Inv s' where
  entry ops ho := by
    rw [hl']
    exact (h.entry ops (hq ▸ ho)).imp (List.mem_append_left _) (hu' _)
  nodup := by
    rw [hq, ((hp.append_left _).trans List.perm_middle).nodup_iff]
    exact List.nodup_cons.mpr ⟨h.fresh hl hu, h.nodup⟩
  pending p hm := by
    rw [hl', hz]
    rcases List.mem_cons.mp (hp.mem_iff.mp hm) with rfl | hm
    · exact .inl (by simp)
    · exact (h.pending p hm).imp_left (List.mem_append_left _)

theorem createProcess_inv {name subName taskName : CStr} {procInit : Bool} {obj : Option ObjParam}
    (h : Inv s) (e : createProcess name subName taskName procInit pid obj s = some s') :
    Inv s' := by
  cases createProcess_step e
  case unknown => exact h
  case refused => exact h.setKeyCache
  case fork keyCache _ _ hl hu =>
    have hk : Inv (s.setKeyCache keyCache) := h.setKeyCache
    refine hk.fork hl hu rfl rfl rfl (fun _ h => h) ?_
    simp [State.pending, State.setKeyCache, List.perm_middle]

theorem getEmptyProc_inv {obj : ObjParam} {name subName taskName : CStr} {procInit : Bool}
    (h : Inv s) (e : getEmptyProc obj name subName taskName procInit pid s = some s') :
    Inv s' := by
  simp only [getEmptyProc] at e
  split at e
  case h_1 =>
    cases e
    exact h
  case h_2 =>
    split at e
    case h_1 =>
      cases e
      exact h
    case h_2 =>
      split at e
      case h_1 =>
        cases e
        exact ⟨h.entry, h.nodup, h.pending⟩
      case h_2 =>
        split at e
        case isTrue => exact createProcess_inv h e
        case isFalse =>
          cases e
          exact h

theorem put2PidQueue_cases (ops : PidOps) (semInit node : Bool) (cfg : ConfigParams)
    (q : List PidOps) :
    put2PidQueue ops semInit node cfg q = q ∨ put2PidQueue ops semInit node cfg q = q ++ [ops] := by
  simp only [put2PidQueue]
  split
  case isTrue =>
    rcases putToShmQueue_cases ops (cfg.slaveObjMax * 3) node q with ⟨-, hq⟩ | ⟨-, hq⟩
    · exact .inr (congrArg Prod.snd hq)
    · exact .inl (congrArg Prod.snd hq)
  case isFalse => exact .inl rfl

theorem created_inv {i : Nat} {semInit node : Bool} (h : Inv s)
    (e : created i semInit node s = some s') : Inv s' := by
  have ⟨c, hc, e⟩ := Option.bind_eq_some_iff.mp e
  cases e
  have ⟨hi, hc⟩ := List.getElem?_eq_some_iff.mp hc
  -- The pid moves from those that are pending to those of the table.
  have hp : s.pending.Perm (c.ops.pid ::
      ((s.creating.eraseIdx i).map (·.ops.pid) ++ s.restarting.map Restarting.pid)) := by
    have := (List.getElem_cons_eraseIdx_perm hi).map (·.ops.pid)
    rw [hc] at this
    exact (this.append_right _).symm
  have hq := put2PidQueue_cases c.ops semInit node s.ap.configArgs s.pidQueue
  have hn := ((hp.append_left _).trans List.perm_middle).nodup_iff.mp h.nodup
  have hm : ∀ p ∈ (s.creating.eraseIdx i).map (·.ops.pid) ++ s.restarting.map Restarting.pid,
      p ∈ s.live ∨ p ∈ s.zombies := fun p hm =>
    h.pending p (hp.mem_iff.mpr (List.mem_cons_of_mem _ hm))
  rcases hq with hq | hq
  · refine ⟨fun ops ho => h.entry ops (hq ▸ ho), ?_, hm⟩
    simpa only [hq, State.pending] using (List.nodup_cons.mp hn).right
  · refine ⟨fun ops ho => ?_, ?_, hm⟩
    · simp only [hq, List.mem_append, List.mem_singleton] at ho
      rcases ho with ho | rfl
      · exact h.entry ops ho
      · exact (h.pending _ (hp.mem_iff.mpr List.mem_cons_self)).imp_right .inl
    · simp only [hq, List.map_append, List.map_cons, List.map_nil, List.append_assoc,
        List.singleton_append, State.pending]
      exact List.perm_middle.nodup_iff.mpr hn

section

variable {q : List PidOps} {oldPid : Int}

theorem mem_modifyFound_pid (hf : ∀ ops, (f ops).pid = pid) {p : Int}
    (h : p ∈ (modifyFound (conditionByPid oldPid) f q).map PidOps.pid) :
    p = pid ∨ p ∈ q.map PidOps.pid := by
  induction q
  case nil => simp [modifyFound] at h
  case cons ops q hi =>
    simp only [modifyFound] at h
    split at h <;> simp only [List.map_cons, List.mem_cons, hf] at h ⊢
    · exact h.imp_right .inr
    · rcases h with h | h
      · exact .inr (.inl h)
      · exact (hi h).imp_right .inr

theorem nodup_modifyFound_pid (hf : ∀ ops, (f ops).pid = pid) (hn : (q.map PidOps.pid).Nodup)
    (hp : pid ∉ q.map PidOps.pid) :
    ((modifyFound (conditionByPid oldPid) f q).map PidOps.pid).Nodup := by
  induction q
  case nil => simp [modifyFound]
  case cons ops q hi =>
    obtain ⟨ho, hn⟩ := List.nodup_cons.mp hn
    obtain ⟨hne, hp⟩ := not_or.mp (mt List.mem_cons.mpr hp)
    simp only [modifyFound]
    split <;> simp only [List.map_cons, hf]
    case isTrue  => exact List.nodup_cons.mpr ⟨hp, hn⟩
    case isFalse =>
      refine List.nodup_cons.mpr ⟨fun hm => ?_, hi hn hp⟩
      exact (mem_modifyFound_pid hf hm).elim (fun h => hne h.symm) ho

theorem pairwise_conditionByPid (hn : (q.map PidOps.pid).Nodup) :
    q.Pairwise fun x y => ¬(conditionByPid oldPid x ∧ conditionByPid oldPid y) := by
  refine (List.pairwise_map.mp hn).imp fun hn => ?_
  simp only [conditionByPid, decide_eq_true_eq]
  exact fun ⟨hx, hy⟩ => hn (hx.symm.trans hy)

end

theorem restarted_inv {i : Nat} (h : Inv s) (e : restarted i s = some s') : Inv s' := by
  have ⟨r, hr, e⟩ := Option.bind_eq_some_iff.mp e
  cases e
  have ⟨hi, hr⟩ := List.getElem?_eq_some_iff.mp hr
  have hperm := List.getElem_cons_eraseIdx_perm hi
  rw [hr] at hperm
  have hp : s.pending.Perm (r.pid ::
      (s.creating.map (·.ops.pid) ++ (s.restarting.eraseIdx i).map Restarting.pid)) :=
    ((hperm.map Restarting.pid).append_left _).symm.trans List.perm_middle
  have ⟨hq, hpn, hd⟩ := List.nodup_append.mp h.nodup
  have ⟨hrp, hpn'⟩ := List.nodup_cons.mp (hp.nodup_iff.mp hpn)
  have hnew : r.pid ∉ s.pidQueue.map PidOps.pid := fun hm =>
    hd _ hm _ (hp.mem_iff.mpr List.mem_cons_self) rfl
  have hf : ∀ ops : PidOps, { ops with pid := r.pid, lastReboot := r.tvSec }.pid = r.pid :=
    fun _ => rfl
  constructor
  case entry =>
    intro ops ho
    rcases mem_modifyFound (pairwise_conditionByPid hq) ho with ⟨ho, hne⟩ | ⟨y, -, rfl⟩
    · -- The entry is another one than that of the restarted process.
      refine (h.entry ops ho).imp_right (Or.imp_right ?_)
      rintro ⟨r', hm, he⟩
      rcases List.mem_cons.mp (hperm.mem_iff.mpr hm) with rfl | hm
      · exact absurd he (by simpa [conditionByPid] using hne)
      · exact ⟨r', hm, he⟩
    · exact (h.pending r.pid (hp.mem_iff.mpr List.mem_cons_self)).imp_right .inl
  case nodup =>
    refine List.nodup_append.mpr ⟨nodup_modifyFound_pid hf hq hnew, hpn', fun p hm p' hm' => ?_⟩
    rintro rfl
    rcases mem_modifyFound_pid hf hm with rfl | hm
    · exact hrp hm'
    · exact hd p hm p (hp.mem_iff.mpr (.tail _ hm')) rfl
  case pending => exact fun p hm => h.pending p (hp.mem_iff.mpr (.tail _ hm))

-- An exit that is handled.
theorem Inv.reap (h : Inv s) (hp : pid ∉ s.pending)
    (hq : ∀ ops ∈ s.pidQueue, ops.pid = pid → ∃ r ∈ s.restarting, r.oldPid = pid) :
    Inv { s with zombies := s.zombies.erase pid } where
  entry ops ho := by
    by_cases he : ops.pid = pid
    case pos => exact .inr (.inr (he ▸ hq ops ho he))
    case neg =>
      exact (h.entry ops ho).imp_right (Or.imp_left (List.mem_erase_of_ne he).mpr)
  nodup := h.nodup
  pending p hm := by
    refine (h.pending p hm).imp_right (List.mem_erase_of_ne ?_).mpr
    rintro rfl
    exact hp hm

theorem delOpsByPid_inv (h : Inv s) (pid : Int) :
    Inv (delOpsByPid pid s) ∧ ∀ ops ∈ (delOpsByPid pid s).pidQueue, ops.pid ≠ pid := by
  simp only [delOpsByPid]
  split
  case h_1 hn =>
    refine ⟨h, fun ops ho he => ?_⟩
    simpa [conditionByPid, he] using List.find?_eq_none.mp hn ops ho
  case h_2 =>
    have hs : (delFromQueue (conditionByPid pid) s.pidQueue).Sublist s.pidQueue :=
      List.eraseP_sublist
    refine ⟨⟨fun ops ho => h.entry ops (hs.subset ho), ?_, h.pending⟩, fun ops ho he => ?_⟩
    case refine_1 => exact h.nodup.sublist ((hs.map _).append_right _)
    case refine_2 =>
      have hq := (List.nodup_append.mp h.nodup).left
      exact (mem_delFromQueue (pairwise_conditionByPid hq) ho).right (by simp [conditionByPid, he])

theorem childQuit_inv {quitPid tvSec : Int} (h : Inv s)
    (hr : Recorded s (.childQuit quitPid tvSec pid)) (e : childQuit quitPid tvSec pid s = some s') :
    Inv s' := by
  have ⟨hp, hr⟩ := hr
  obtain ⟨hz, s₁, hs, rfl⟩ := childQuit_some e
  cases hs
  case unknown hn =>
    apply h.reap hp
    intro ops ho he
    simpa [conditionByPid, he] using List.find?_eq_none.mp hn ops ho
  case stopped =>
    have ⟨hi, hq⟩ := delOpsByPid_inv h quitPid
    have he : (delOpsByPid quitPid s).pending = s.pending := by
      simp only [delOpsByPid]
      split <;> rfl
    exact hi.reap (he ▸ hp) fun ops ho he => absurd he (hq ops ho)
  case early ops hops hrun hlt => exact absurd hlt (Int.not_lt.mpr (hr ops hops hrun))
  case fork hl hu =>
    have hi : Inv { s with
        live := s.live ++ [pid]
        restarting := s.restarting ++ [⟨quitPid, pid, tvSec⟩] } := by
      refine h.fork hl hu rfl rfl rfl (fun p hu => ?_) ?_
      · exact hu.imp_right fun ⟨r, hm, he⟩ => ⟨r, List.mem_append_left _ hm, he⟩
      · simp only [State.pending, List.map_append, ← List.append_assoc]
        exact List.perm_append_singleton _ _
    refine hi.reap (fun hm => ?_) fun _ _ _ =>
      ⟨_, List.mem_append_right _ List.mem_cons_self, rfl⟩
    -- The new process has another pid than the one that has exited.
    have hm : quitPid ∈ s.pending ∨ quitPid = pid := by
      simpa [State.pending, or_assoc] using hm
    rcases hm with hm | rfl
    · exact hp hm
    · exact hu (.inl hz)

theorem Step.inv {l : Label} (h : Inv s) (hr : Recorded s l) (e : Step s l s') : Inv s' := by
  cases l
  case createProcess => exact createProcess_inv h e
  case created       => exact created_inv h e
  case getEmptyProc  => exact getEmptyProc_inv h e
  case childQuit     => exact childQuit_inv h hr e
  case restarted     => exact restarted_inv h e
  case start         => exact h.act e fun _ => rfl
  case delObj        => exact h.act e fun _ => rfl
  case stop          => exact h.act e fun _ => rfl
  case assigned i node =>
    obtain ⟨⟨obj, pid⟩, -, e⟩ := Option.bind_eq_some_iff.mp e
    cases e
    have hi := h.modify pid (f := putObj2pidQue obj node) fun ops => by
      simp only [putObj2pidQue]
      split <;> rfl
    exact ⟨hi.entry, hi.nodup, hi.pending⟩
  case exit pid =>
    simp only [Step, exec] at e
    split at e <;> cases e
    have hm : ∀ p, p ∈ s.live → p ∈ s.live.erase pid ∨ p ∈ s.zombies ++ [pid] := by
      intro p hp
      by_cases he : p = pid
      case pos => exact .inr (by simp [he])
      case neg => exact .inl ((List.mem_erase_of_ne he).mpr hp)
    refine ⟨fun ops ho => ?_, h.nodup, fun p hp => ?_⟩
    · rcases h.entry ops ho with hl | hz | hu
      · exact (hm _ hl).imp_right .inl
      · exact .inr (.inl (List.mem_append_left _ hz))
      · exact .inr (.inr hu)
    · rcases h.pending p hp with hl | hz
      · exact hm p hl
      · exact .inr (List.mem_append_left _ hz)

-- The table stays that of the processes that are not over in all runs in which exits are handled
-- as above.
theorem accounted_of_recorded {ap : AiotcParams} {tr : List (State × Label)}
    (r : Run Step { ap := ap } tr s) (hr : Run.Meets Recorded tr) : Run.Always Accounted tr s := by
  have h : Inv { ap := ap } := by
    constructor <;> simp [State.pending]
  exact (r.always_of_meets (fun _ _ _ h hr e => e.inv h hr) h hr).mono fun _ h => h.accounted

section

def ap : AiotcParams where
  configArgs := ⟨0, 100, 100, 1000, 100⟩
  slaveArgs := { keyCache := .replicate 100 0 }

-- A process that crashes 1000 seconds after it was created, and is restarted.
def restart : List Label := [
  .createProcess "obj" "rtsp" "live" true 71, .created 0 true true, .start 71 10,
  .exit 71, .childQuit 71 1000 72, .restarted 0]

theorem accounted_of_recorded_witness :
    ∃ s, Run Step { ap := ap } (Run.partialTrace exec restart { ap := ap }) s ∧ Accounted s ∧
      s.pidQueue.map PidOps.pid = [72] := by
  have r := Run.of_partialTrace exec restart { ap := ap } rfl
  refine ⟨_, r, (accounted_of_recorded r ?_).last, rfl⟩
  refine Run.meets_cons.mpr ⟨trivial, Run.meets_cons.mpr ⟨trivial, Run.meets_cons.mpr ⟨trivial,
    Run.meets_cons.mpr ⟨trivial, Run.meets_cons.mpr ⟨⟨by decide, ?_⟩,
      Run.meets_cons.mpr ⟨trivial, Run.meets_nil⟩⟩⟩⟩⟩⟩
  rintro _ ⟨⟩ -
  decide

-- The process crashes again within 300 seconds. It is not restarted, but stays in the table, and
-- `getEmptyProc` finds it for other objects.
theorem not_accounted :
    ¬∀ (ap : AiotcParams) (tr : List (State × Label)) (s : State),
      Run Step { ap := ap } tr s → Accounted s := by
  intro h
  have r := Run.of_partialTrace exec
    (restart ++ [.start 72 10, .exit 72, .childQuit 72 1100 73]) { ap := ap } rfl
  rcases (h ap _ _ r).entry _ List.mem_cons_self with hl | hz | ⟨r, hr, -⟩
  · exact absurd hl (by decide)
  · exact absurd hz (by decide)
  · exact absurd hr List.not_mem_nil

end

end Pids
