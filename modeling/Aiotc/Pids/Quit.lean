import Aiotc.Pids.Live

-- main.cpp: SIGCHLD, and the children that its handler hands to `creatProcByPid`. `running` is 1 as
-- long as main is there.

namespace Pids

-- Where a run of `main_child_quit_signal` is: before its `wait`, or behind its `creatProcByPid`.
-- The threads of main can run it at the same time.
inductive HandlerPc
  | wait
  | quit
  deriving DecidableEq

-- `pending` tells if a SIGCHLD is pending, of which there is one at most. `exited` are the children
-- that have exited, and `passed` those that were handed to `creatProcByPid`.
structure Signals where
  pids : State
  pending : Bool := false
  handlers : List HandlerPc := []
  exited : List Int := []
  passed : List Int := []

namespace Signals

-- `pids` are the steps of the processes, and of main outside of the handlers.
inductive Label
  | deliver
  | childQuit (i : Nat) (quitPid : Int) (tvSec : Int) (pid : Int)
  | quit (i : Nat)
  | pids (l : Pids.Label)

def exec : Label → Signals → Option Signals
  | .deliver, s                    =>
    if s.pending then
      some { s with pending := false, handlers := s.handlers ++ [.wait] }
    else
      none
  | .childQuit i quitPid tvSec pid, s =>
    if s.handlers[i]? = some .wait then do
      let pids ← Pids.childQuit quitPid tvSec pid s.pids
      return { s with
        pids := pids
        handlers := s.handlers.set i .quit
        passed := s.passed ++ [quitPid] }
    else
      none
  | .quit i, s                     =>
    if s.handlers[i]? = some .quit then
      some { s with handlers := s.handlers.eraseIdx i }
    else
      none
  | .pids (.childQuit _ _ _), _    => none
  | .pids (.exit pid), s           => do
    let pids ← Pids.exec (.exit pid) s.pids
    return { s with pids := pids, pending := true, exited := s.exited ++ [pid] }
  | .pids l, s                     => do
    let pids ← Pids.exec l s.pids
    return { s with pids := pids }

def Step (s : Signals) (l : Label) (s' : Signals) : Prop :=
  exec l s = some s'

-- No SIGCHLD is pending, and its handler is not running.
structure Quiet (s : Signals) : Prop where
  pending  : s.pending = false
  handlers : s.handlers = []

structure Reaped (s : Signals) : Prop where
  zombies : s.pids.zombies = []
  passed  : s.exited.Perm s.passed

-- A child exits only while no SIGCHLD is pending, with which its own would be merged.
def Unmerged (s : Signals) : Label → Prop
  | .pids (.exit _) => s.pending = false
  | _               => True

end Signals

section

variable {s s' : State} {pid : Int}

theorem createProcess_zombies {name subName taskName : CStr} {procInit : Bool}
    {obj : Option ObjParam}
    (e : createProcess name subName taskName procInit pid obj s = some s') :
    s'.zombies = s.zombies := by
  cases createProcess_step e <;> rfl

theorem getEmptyProc_zombies {obj : ObjParam} {name subName taskName : CStr} {procInit : Bool}
    (e : getEmptyProc obj name subName taskName procInit pid s = some s') :
    s'.zombies = s.zombies := by
  simp only [getEmptyProc] at e
  split at e
  case h_1 =>
    cases e
    rfl
  case h_2 =>
    split at e
    case h_1 =>
      cases e
      rfl
    case h_2 =>
      split at e
      case h_1 =>
        cases e
        rfl
      case h_2 =>
        split at e
        case isTrue => exact createProcess_zombies e
        case isFalse =>
          cases e
          rfl

theorem RecreateStep.zombies {oldPid tvSec : Int} (h : RecreateStep oldPid tvSec pid s s') :
    s'.zombies = s.zombies := by
  cases h
  case stopped =>
    simp only [delOpsByPid]
    split <;> rfl
  all_goals rfl

-- A child becomes a zombie when it exits, until a handler waits for it.
theorem exec_zombies {l : Label} (he : ∀ p, l ≠ .exit p) (hq : ∀ p t p', l ≠ .childQuit p t p')
    (e : exec l s = some s') : s'.zombies = s.zombies := by
  cases l
  case createProcess => exact createProcess_zombies e
  case getEmptyProc  => exact getEmptyProc_zombies e
  case exit p        => exact absurd rfl (he p)
  case childQuit     => exact absurd rfl (hq _ _ _)
  case created       =>
    obtain ⟨_, -, e⟩ := Option.bind_eq_some_iff.mp e
    cases e
    rfl
  case assigned      =>
    obtain ⟨_, -, e⟩ := Option.bind_eq_some_iff.mp e
    cases e
    rfl
  case restarted     =>
    obtain ⟨_, -, e⟩ := Option.bind_eq_some_iff.mp e
    cases e
    rfl
  all_goals
    have ⟨_, e⟩ := Option.ite_none_right_eq_some.mp e
    cases e
    rfl

end

namespace Signals

variable {s s' : Signals} {l : Label}

-- What one step does to the children that have exited, and to the signals and handlers that are to
-- answer for them.
inductive Effect (s : Signals) (l : Label) (s' : Signals) : Prop
  | exit (pid : Int) : l = .pids (.exit pid) → s'.pids.zombies = s.pids.zombies ++ [pid] →
    s'.pending = true → s'.handlers = s.handlers → s'.exited = s.exited ++ [pid] →
    s'.passed = s.passed → Effect s l s'
  | deliver : l = .deliver → s.pending = true → s' = { s with
    pending := false, handlers := s.handlers ++ [.wait] } → Effect s l s'
  | reap (i : Nat) (pid : Int) : (∀ p, l ≠ .pids (.exit p)) → s.handlers[i]? = some .wait →
    pid ∈ s.pids.zombies → s'.pids.zombies = s.pids.zombies.erase pid →
    s'.pending = s.pending → s'.handlers = s.handlers.set i .quit → s'.exited = s.exited →
    s'.passed = s.passed ++ [pid] → Effect s l s'
  | quit (i : Nat) : l = .quit i → s.handlers[i]? = some .quit →
    s' = { s with handlers := s.handlers.eraseIdx i } → Effect s l s'
  | other : (∀ p, l ≠ .pids (.exit p)) → s'.pids.zombies = s.pids.zombies →
    s' = { s with pids := s'.pids } → Effect s l s'

theorem Step.effect (e : Step s l s') : Effect s l s' := by
  simp only [Step, exec] at e
  split at e
  case h_1 =>
    have ⟨hp, e⟩ := Option.ite_none_right_eq_some.mp e
    exact .deliver rfl hp (Option.some.inj e).symm
  case h_2 s i quitPid tvSec pid =>
    have ⟨hi, e⟩ := Option.ite_none_right_eq_some.mp e
    have ⟨p, hq, e⟩ := Option.bind_eq_some_iff.mp e
    cases e
    obtain ⟨hz, s₁, hs, rfl⟩ := childQuit_some hq
    refine .reap i quitPid nofun hi hz ?_ rfl rfl rfl rfl
    exact congrArg (List.erase · quitPid) hs.zombies
  case h_3 s i =>
    have ⟨hi, e⟩ := Option.ite_none_right_eq_some.mp e
    exact .quit i rfl hi (Option.some.inj e).symm
  case h_4 => cases e
  case h_5 s pid =>
    have ⟨p, hx, e⟩ := Option.bind_eq_some_iff.mp e
    cases e
    obtain ⟨-, hx⟩ := Option.ite_none_right_eq_some.mp hx
    cases hx
    exact .exit pid rfl rfl rfl rfl rfl rfl
  case h_6 hq he =>
    have ⟨p, hx, e⟩ := Option.bind_eq_some_iff.mp e
    cases e
    refine .other (fun p h => ?_) ?_ rfl
    · exact he p (Label.pids.inj h)
    · exact exec_zombies he hq hx

-- The signals and handlers that are still to answer for a child.
def answers (s : Signals) : Nat :=
  s.pending.toNat + s.handlers.count .wait

structure Inv (s : Signals) : Prop where
  exited  : s.exited.Perm (s.passed ++ s.pids.zombies)
  answers : s.answers ≤ s.pids.zombies.length

-- The children for which nothing is to answer.
def lost (s : Signals) : Nat :=
  s.pids.zombies.length - s.answers

theorem count_set_wait {hs : List HandlerPc} {i : Nat} (h : hs[i]? = some .wait) :
    (hs.set i .quit).count .wait + 1 = hs.count .wait := by
  have ⟨hi, hw⟩ := List.getElem?_eq_some_iff.mp h
  have hc : hs.count .wait ≠ 0 := fun h₀ =>
    List.count_eq_zero.mp h₀ (List.mem_of_getElem? h)
  rw [List.count_set hi, hw]
  simp only [beq_self_eq_true, if_true, reduceCtorEq, beq_iff_eq, if_false]
  omega

theorem count_eraseIdx_quit {hs : List HandlerPc} {i : Nat} (h : hs[i]? = some .quit) :
    (hs.eraseIdx i).count .wait = hs.count .wait := by
  have ⟨hi, hq⟩ := List.getElem?_eq_some_iff.mp h
  have hp := List.getElem_cons_eraseIdx_perm hi
  rw [← hp.count_eq, hq]
  simp

-- Each step keeps the balance, but for the exit of a child whose SIGCHLD is merged.
theorem Step.inv (h : Inv s) (e : Step s l s') : Inv s' := by
  have ha := h.answers
  simp only [Signals.answers] at ha
  cases e.effect
  case exit pid _ hz hp hh hx hs =>
    refine ⟨?_, ?_⟩
    case refine_1 =>
      rw [hx, hs, hz, ← List.append_assoc]
      exact h.exited.append_right [pid]
    case refine_2 =>
      simp only [Signals.answers, hz, hp, hh, List.length_append, List.length_singleton,
        Bool.toNat_true]
      omega
  case deliver hp hs =>
    subst hs
    refine ⟨h.exited, ?_⟩
    simp only [Signals.answers, hp, List.count_append, List.count_singleton_self,
      Bool.toNat_true, Bool.toNat_false] at ha ⊢
    omega
  case reap i pid _ hi hm hz hp hh hx hs =>
    have hc := count_set_wait hi
    refine ⟨?_, ?_⟩
    case refine_1 =>
      rw [hx, hs, hz, List.append_assoc]
      exact h.exited.trans ((List.perm_cons_erase hm).append_left _)
    case refine_2 =>
      simp only [Signals.answers, hz, hp, hh, List.length_erase_of_mem hm]
      omega
  case quit i hi hs =>
    subst hs
    refine ⟨h.exited, ?_⟩
    simp only [Signals.answers, count_eraseIdx_quit hi]
    exact ha
  case other hz hs =>
    rw [hs]
    refine ⟨?_, ?_⟩
    · rw [hz]
      exact h.exited
    · rw [hz]
      exact h.answers

theorem Step.lost_eq (h : Inv s) (e : Step s l s') (hu : Unmerged s l) : s'.lost = s.lost := by
  have ha := h.answers
  simp only [Signals.answers] at ha
  cases e.effect
  case exit pid hl hz hp hh _ _ =>
    subst hl
    simp only [Unmerged] at hu
    simp only [lost, Signals.answers, hz, hp, hh, hu, List.length_append, List.length_singleton,
      Bool.toNat_true, Bool.toNat_false]
    omega
  case deliver hp hs =>
    subst hs
    simp only [lost, Signals.answers, hp, List.count_append, List.count_singleton_self,
      Bool.toNat_true, Bool.toNat_false]
    omega
  case reap i pid _ hi hm hz hp hh _ _ =>
    have hc := count_set_wait hi
    simp only [lost, Signals.answers, hz, hp, hh, List.length_erase_of_mem hm]
    omega
  case quit i hi hs =>
    subst hs
    simp only [lost, Signals.answers, count_eraseIdx_quit hi]
  case other hz hs =>
    rw [hs]
    simp only [lost, Signals.answers, hz]

theorem unmerged_of_ne (h : ∀ p, l ≠ .pids (.exit p)) : Unmerged s l := by
  simp only [Unmerged]

theorem Step.lost_lt (h : Inv s) (e : Step s l s') (hu : ¬Unmerged s l) : s.lost < s'.lost := by
  have ha := h.answers
  simp only [Signals.answers] at ha
  cases e.effect
  case exit pid hl hz hp hh _ _ =>
    subst hl
    simp only [Unmerged, Bool.not_eq_false] at hu
    simp only [lost, Signals.answers, hz, hp, hh, hu, List.length_append, List.length_singleton,
      Bool.toNat_true] at ha ⊢
    omega
  case deliver hl _ _ =>
    subst hl
    exact absurd trivial hu
  case quit hl _ _ =>
    subst hl
    exact absurd trivial hu
  case reap hl _ _ _ _ _ _ _ => exact absurd (unmerged_of_ne hl) hu
  case other hl _ _          => exact absurd (unmerged_of_ne hl) hu

theorem reaped_iff_lost (h : Inv s) (hq : Quiet s) : Reaped s ↔ s.lost = 0 := by
  have hl : s.lost = s.pids.zombies.length := by
    simp [lost, answers, hq.pending, hq.handlers]
  rw [hl, List.length_eq_zero_iff]
  refine ⟨Reaped.zombies, fun hz => ⟨hz, ?_⟩⟩
  have := h.exited
  rwa [hz, List.append_nil] at this

-- When no SIGCHLD is pending and no handler runs, all children that have exited were handed to
-- `creatProcByPid` exactly if no SIGCHLD was merged.
theorem reaped_iff_unmerged {ap : AiotcParams} {tr : List (Signals × Label)}
    (r : Run Step { pids := { ap := ap } } tr s) (hq : Quiet s) :
    Reaped s ↔ Run.Meets Unmerged tr := by
  have hi : Inv { pids := { ap := ap } } := ⟨.refl _, Nat.le_refl _⟩
  have hs := r.invariant (fun _ _ _ h e => e.inv h) hi
  have hm := Run.measure_eq_iff_meets (fun _ _ _ h e => e.inv h)
    (fun _ _ _ h e hu => e.lost_eq h hu)
    (fun _ _ _ h e hu => e.lost_lt h hu) r hi
  exact (reaped_iff_lost hs hq).trans hm.right

section

def crashes : List Label := [
  .pids (.createProcess "obj" "rtsp" "live" true 71), .pids (.created 0 true true),
  .pids (.createProcess "obj" "rtsp" "live" true 72), .pids (.created 0 true true),
  .pids (.start 71 10), .pids (.start 72 10),
  .pids (.exit 71), .deliver, .childQuit 0 71 1000 73, .quit 0, .pids (.restarted 0),
  .pids (.exit 72), .deliver, .childQuit 0 72 1001 74, .quit 0, .pids (.restarted 0),
  .pids (.exit 73), .deliver, .childQuit 0 73 1400 75, .quit 0, .pids (.restarted 0)]

-- Processes crash one after the other, one of them twice, and the handler has each restarted.
theorem reaped_iff_unmerged_witness :
    ∃ s, Run Step { pids := { ap := ap } }
      (Run.partialTrace exec crashes { pids := { ap := ap } }) s ∧ Quiet s ∧ Reaped s ∧
      s.pids.pidQueue.map PidOps.pid = [75, 74] := by
  have r := Run.of_partialTrace exec crashes { pids := { ap := ap } } rfl
  refine ⟨_, r, ⟨rfl, rfl⟩, (reaped_iff_unmerged r ⟨rfl, rfl⟩).mpr ?_, rfl⟩
  iterate 21 refine Run.meets_cons.mpr ⟨by trivial, ?_⟩
  exact Run.meets_nil

-- Two processes exit at once. The handler runs once, and the second one stays a zombie.
theorem not_reaped :
    ¬∀ (ap : AiotcParams) (tr : List (Signals × Label)) (s : Signals),
      Run Step { pids := { ap := ap } } tr s → Quiet s → Reaped s := by
  intro h
  have r := Run.of_partialTrace exec [.pids (.createProcess "obj" "rtsp" "live" true 71),
    .pids (.created 0 true true), .pids (.createProcess "obj" "rtsp" "live" true 72),
    .pids (.created 0 true true), .pids (.exit 71), .pids (.exit 72), .deliver,
    .childQuit 0 71 1000 73, .quit 0] { pids := { ap := ap } } rfl
  exact absurd (h ap _ _ r ⟨rfl, rfl⟩).zombies (by decide)

end

end Signals

end Pids
