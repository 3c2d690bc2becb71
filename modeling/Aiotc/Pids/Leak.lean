import Aiotc.Pids.MsgKey
import Aiotc.Pids.Live

-- Which message keys are in use while processes come and go.

open Queue

namespace Pids

-- Nothing is in progress.
def Idle (s : State) : Prop :=
  s.creating = [] ∧ s.restarting = []

-- The keys in use are those of the processes of the table.
structure KeysExact (s : State) : Prop where
  perm  : (allocated s.ap.slaveArgs.keyCache).Perm (s.pidQueue.map PidOps.msgKey)
  nodup : (s.pidQueue.map PidOps.msgKey).Nodup

def KeyFree (s : State) : Prop :=
  (allocated s.ap.slaveArgs.keyCache).length < s.ap.configArgs.msgKeyMax - 1

-- The init of a process that gets a key does not fail.
def InitSucceeds (name subName taskName : CStr) (procInit : Bool) (s : State) : Prop :=
  ∀ ops, getOpsByName name subName taskName = some ops → ops.procInit → KeyFree s → procInit

-- A key that is taken gets into the table.
def Kept (s : State) : Label → Prop
  | .createProcess name subName taskName procInit _    =>
    InitSucceeds name subName taskName procInit s
  | .getEmptyProc obj name subName taskName procInit _ =>
    (∀ tmp, getOpsByName name subName taskName = some tmp →
      searchProc obj name subName tmp s.pidQueue = none) →
    s.ap.slaveArgs.load < SLAVE_LOAD_MAX → InitSucceeds name subName taskName procInit s
  | .created _ semInit node                            =>
    semInit ∧ s.pidQueue.length < s.ap.configArgs.slaveObjMax * 3 ∧ node
  | _                                                  => True

def State.keys (s : State) : List Int :=
  s.pidQueue.map PidOps.msgKey ++ s.creating.map (·.ops.msgKey)

-- `leaked` are the keys that are in use and that no process has.
def Leaking (s : State) (leaked : List Int) : Prop :=
  Caching s.ap.configArgs s.ap.slaveArgs.keyCache (s.keys ++ leaked)

variable {s s' : State} {leaked : List Int} {pid : Int} {f : PidOps → PidOps}

theorem Leaking.keyFree_iff (h : Leaking s leaked) :
    KeyFree s ↔ Pool.acquire (msgKeys s.ap.configArgs) (s.keys ++ leaked) ≠ none := by
  have hl := length_msgKeys h.one_le
  have hle := h.valid.length_le
  rw [Ne, h.valid.acquire_eq_none_iff (nodup_msgKeys _), KeyFree, h.allocated.length_eq, ← hl]
  omega

theorem Leaking.modify (h : Leaking s leaked) (pid : Int)
    (hf : ∀ ops, (f ops).msgKey = ops.msgKey) :
    Leaking (s.modify pid f) leaked := by
  simp only [Leaking, State.keys, State.modify, map_modifyFound hf]
  exact h

theorem Leaking.act (h : Leaking s leaked) (e : s.act pid f = some s')
    (hf : ∀ ops, (f ops).msgKey = ops.msgKey) : Leaking s' leaked := by
  simp only [State.act] at e
  split at e <;> cases e
  exact h.modify _ hf

-- What a step does to the keys that no process has: they stay the same, or one is added.
def LeakStep (s' : State) (leaked : List Int) (kept : Prop) : Prop :=
  kept ∧ Leaking s' leaked ∨ ¬kept ∧ ∃ key, Leaking s' (leaked ++ [key])

theorem createProcess_leak {name subName taskName : CStr} {procInit : Bool}
    {obj : Option ObjParam} (h : Leaking s leaked)
    (e : createProcess name subName taskName procInit pid obj s = some s') :
    LeakStep s' leaked (InitSucceeds name subName taskName procInit s) := by
  simp only [createProcess] at e
  split at e
  case h_1 hn =>
    cases e
    exact .inl ⟨fun _ ho => by simp [hn] at ho, h⟩
  case h_2 ops ho =>
    rcases h.getMsgKey with ⟨ha, hg⟩ | ⟨key, keyCache, ha, hg, hc⟩ <;> rw [hg] at e
    case inl =>
      cases e
      exact .inl ⟨fun _ _ _ hk => absurd ha ((h.keyFree_iff).mp hk), h⟩
    case inr =>
      have hkey : ¬key < 0 := by
        have : 0 < key := hc.pos (by simp)
        omega
      have hk : KeyFree s := (h.keyFree_iff).mpr (by simp [ha])
      simp only [hkey, false_or] at e
      split at e
      case isTrue hp =>
        cases e
        refine .inr ⟨fun hi => hp.right (hi ops ho hp.left hk), key, ?_⟩
        rw [List.append_assoc] at hc
        exact hc
      case isFalse hp =>
        obtain ⟨_, hf, e⟩ := Option.bind_eq_some_iff.mp e
        obtain ⟨-, rfl⟩ := fork_some hf
        cases e
        refine .inl ⟨fun ops' ho' hi _ => ?_, hc.perm ?_⟩
        · cases ho.symm.trans ho'
          simpa [hi] using hp
        · have hp := (@List.perm_append_comm _ leaked [key]).append_left s.keys
          simpa [State.keys, State.setKeyCache] using hp

theorem getEmptyProc_leak {obj : ObjParam} {name subName taskName : CStr} {procInit : Bool}
    (h : Leaking s leaked)
    (e : getEmptyProc obj name subName taskName procInit pid s = some s') :
    LeakStep s' leaked (Kept s (.getEmptyProc obj name subName taskName procInit pid)) := by
  simp only [getEmptyProc] at e
  split at e
  case h_1 hn =>
    cases e
    exact .inl ⟨fun _ _ _ ho => by simp [hn] at ho, h⟩
  case h_2 tmp ht =>
    split at e
    case h_1 ops ho =>
      cases e
      refine .inl ⟨fun hs => ?_, h⟩
      simpa [searchProc, ho] using hs tmp ht
    case h_2 hn =>
      split at e
      case h_1 ops ho =>
        cases e
        refine .inl ⟨fun hs => ?_, h⟩
        simpa [searchProc, hn, ho] using hs tmp ht
      case h_2 hn' =>
        have hs : ∀ tmp, getOpsByName name subName taskName = some tmp →
            searchProc obj name subName tmp s.pidQueue = none := by
          intro _ ht'
          cases ht.symm.trans ht'
          simp [searchProc, hn, hn']
        split at e
        case isTrue hl =>
          apply (createProcess_leak h e).imp (And.imp_left fun hi _ _ => hi)
          exact And.imp_left fun hn hk => hn (hk hs hl)
        case isFalse hl =>
          cases e
          exact .inl ⟨fun _ hl' => absurd hl' hl, h⟩

theorem created_leak {i : ℕ} {semInit node : Bool} (h : Leaking s leaked)
    (e : created i semInit node s = some s') :
    LeakStep s' leaked (Kept s (.created i semInit node)) := by
  have ⟨c, hc, e⟩ := Option.bind_eq_some_iff.mp e
  cases e
  have ⟨hi, hc⟩ := List.getElem?_eq_some_iff.mp hc
  have hp := (List.getElem_cons_eraseIdx_perm hi).symm.map (·.ops.msgKey)
  rw [hc, List.map_cons] at hp
  by_cases hk : Kept s (.created i semInit node)
  case pos =>
    -- The key moves to the table.
    obtain ⟨rfl, hr, rfl⟩ := hk
    refine .inl ⟨⟨rfl, hr, rfl⟩, h.perm (List.Perm.append_right _ ?_)⟩
    simpa [State.keys, put2PidQueue, putToShmQueue_of_room hr] using hp.append_left _
  case neg =>
    have hq : put2PidQueue c.ops semInit node s.ap.configArgs s.pidQueue = s.pidQueue := by
      simp only [put2PidQueue]
      split
      case isTrue hs =>
        rcases putToShmQueue_cases c.ops (s.ap.configArgs.slaveObjMax * 3) node s.pidQueue with
          ⟨hr, -⟩ | ⟨-, hq⟩
        · exact absurd ⟨hs, hr⟩ hk
        · rw [hq]
      case isFalse => rfl
    refine .inr ⟨hk, c.ops.msgKey, h.perm ?_⟩
    simp only [State.keys, hq]
    apply ((hp.append_left _).append_right _).trans
    grind

theorem delOpsByPid_leak (h : Leaking s leaked) (pid : Int) :
    Leaking (delOpsByPid pid s) leaked := by
  simp only [delOpsByPid]
  split
  case h_1     => exact h
  case h_2 ops ho =>
    rcases delFromQueue_cases (conditionByPid pid) s.pidQueue with ⟨q₁, x, q₂, hq, hs, hd⟩ | ⟨hs, -⟩
    case inl =>
      cases ho.symm.trans hs
      have hp : (s.keys ++ leaked).Perm (ops.msgKey ::
          ((q₁ ++ q₂).map PidOps.msgKey ++ s.creating.map (·.ops.msgKey) ++ leaked)) := by
        simp only [State.keys, hq, List.map_append, List.map_cons, List.append_assoc,
          List.cons_append]
        exact List.perm_middle
      have hc := (h.delMsgKey (hp.mem_iff.mpr List.mem_cons_self)).perm (hp.erase ops.msgKey)
      rw [List.erase_cons_head] at hc
      simpa only [Leaking, State.keys, State.setKeyCache, hd] using hc
    case inr => cases ho.symm.trans hs

theorem Step.leak {l : Label} (h : Leaking s leaked)
    (e : Step s l s') : LeakStep s' leaked (Kept s l) := by
  cases l
  case createProcess => exact createProcess_leak h e
  case created       => exact created_leak h e
  case getEmptyProc  => exact getEmptyProc_leak h e
  case start         => exact .inl ⟨trivial, h.act e fun _ => rfl⟩
  case delObj        => exact .inl ⟨trivial, h.act e fun _ => rfl⟩
  case stop          => exact .inl ⟨trivial, h.act e fun _ => rfl⟩
  case assigned i node =>
    obtain ⟨⟨obj, pid⟩, -, e⟩ := Option.bind_eq_some_iff.mp e
    cases e
    refine .inl ⟨trivial, h.modify pid fun ops => ?_⟩
    simp only [putObj2pidQue]
    split <;> rfl
  case childQuit =>
    obtain ⟨-, s₁, hs, rfl⟩ := childQuit_some e
    refine .inl ⟨trivial, ?_⟩
    cases hs
    case stopped => exact delOpsByPid_leak h _
    all_goals exact h
  case restarted i =>
    obtain ⟨r, -, e⟩ := Option.bind_eq_some_iff.mp e
    cases e
    exact .inl ⟨trivial, h.modify r.oldPid fun _ => rfl⟩
  case exit pid =>
    simp only [Step, exec] at e
    split at e <;> cases e
    exact .inl ⟨trivial, h⟩

-- How many keys are in use that no process has.
def State.leaks (s : State) : ℕ :=
  (allocated s.ap.slaveArgs.keyCache).length - s.keys.length

theorem Leaking.leaks (h : Leaking s leaked) : s.leaks = leaked.length := by
  rw [State.leaks, h.allocated.length_eq, List.length_append, Nat.add_sub_cancel_left]

theorem Leaking.keysExact_iff (h : Leaking s leaked) (hi : Idle s) :
    KeysExact s ↔ leaked.length = 0 := by
  have hk : s.keys = s.pidQueue.map PidOps.msgKey := by
    rw [State.keys, hi.left, List.map_nil, List.append_nil]
  have hp := h.allocated
  have hn := h.valid.nodup
  rw [hk] at hp hn
  constructor
  case mp =>
    intro he
    have hl := he.perm.length_eq.symm.trans hp.length_eq
    rw [List.length_append] at hl
    omega
  case mpr =>
    intro hl
    rw [List.length_eq_zero_iff.mp hl, List.append_nil] at hp hn
    exact ⟨hp, hn⟩

-- While nothing is in progress, the keys in use are those of the table exactly if each key that was
-- taken got there.
theorem keysExact_iff_kept {ap : AiotcParams} (hmax : 1 ≤ ap.configArgs.msgKeyMax)
    (hstart : 0 ≤ ap.configArgs.msgKeyStart)
    (hz : ap.slaveArgs.keyCache = .replicate ap.configArgs.msgKeyMax.toNat 0)
    {tr : List (State × Label)} (r : Run Step { ap := ap } tr s) (hi : Idle s) :
    KeysExact s ↔ Run.Meets Kept tr := by
  have h₀ : Leaking { ap := ap } [] := by
    simp only [Leaking, hz]
    exact .zeroed hmax hstart
  have hstep : ∀ s l s', (∃ leaked, Leaking s leaked) → Step s l s' →
      ∃ leaked, Leaking s' leaked := by
    rintro s l s' ⟨leaked, h⟩ e
    rcases e.leak h with ⟨-, h⟩ | ⟨-, key, h⟩
    · exact ⟨_, h⟩
    · exact ⟨_, h⟩
  have hm := (Run.measure_eq_iff_meets (m := State.leaks) (C := Kept) hstep ?_ ?_ r ⟨[], h₀⟩).right
  case refine_1 =>
    rintro s l s' ⟨leaked, h⟩ e hk
    rcases e.leak h with ⟨-, h'⟩ | ⟨hn, -⟩
    · rw [h.leaks, h'.leaks]
    · exact absurd hk hn
  case refine_2 =>
    rintro s l s' ⟨leaked, h⟩ e hk
    rcases e.leak h with ⟨hn, -⟩ | ⟨-, key, h'⟩
    · exact absurd hn hk
    · rw [h.leaks, h'.leaks, List.length_append]
      exact Nat.lt_succ_self _
  have ⟨leaked, h⟩ := r.invariant hstep ⟨[], h₀⟩
  rw [h.keysExact_iff hi, ← h.leaks, ← hm, h₀.leaks, List.length_nil]

section

-- A process is created and stops by itself.
def stop : List Label := [
  .createProcess "work" "null" "null" true 71, .created 0 true true, .start 71 10, .stop 71,
  .exit 71, .childQuit 71 1000 72]

theorem keysExact_iff_kept_witness :
    ∃ s, Run Step { ap := ap } (Run.partialTrace exec stop { ap := ap }) s ∧ Idle s ∧
      KeysExact s := by
  have r := Run.of_partialTrace exec stop { ap := ap } rfl
  refine ⟨_, r, ⟨rfl, rfl⟩,
    (keysExact_iff_kept (by decide) (by decide) rfl r ⟨rfl, rfl⟩).mpr ?_⟩
  refine Run.meets_cons.mpr ⟨fun _ _ _ _ => rfl, Run.meets_cons.mpr ⟨⟨rfl, by decide, rfl⟩, ?_⟩⟩
  iterate 4 refine Run.meets_cons.mpr ⟨trivial, ?_⟩
  exact Run.meets_nil

-- The process could not be put into the table, and its key stays in use.
theorem not_keysExact :
    ¬∀ (ap : AiotcParams) (tr : List (State × Label)) (s : State),
      1 ≤ ap.configArgs.msgKeyMax → 0 ≤ ap.configArgs.msgKeyStart →
      ap.slaveArgs.keyCache = .replicate ap.configArgs.msgKeyMax.toNat 0 →
      Run Step { ap := ap } tr s → Idle s → KeysExact s := by
  intro h
  have r := Run.of_partialTrace exec
    [.createProcess "work" "null" "null" true 71, .created 0 true false] { ap := ap } rfl
  have hp := (h ap _ _ (by decide) (by decide) rfl r ⟨rfl, rfl⟩).perm
  exact absurd hp.length_eq (by decide)

end

end Pids
