import Aiotc.Library.Heap
import Aiotc.Shm.Readers

-- The life of a node, from `putToShmQueue` to `shmFree`.

open Heap Share

namespace Readers

variable {β : Type}

namespace Pc

-- The node that a reader deals with.
def node : Pc → Option Addr
  | hold a _   => some a
  | freePtr a  => some a
  | freeNode a => some a
  | _          => none

-- The node whose block it has not freed.
def block : Pc → Option Addr
  | hold a _  => some a
  | freePtr a => some a
  | _         => none

end Pc

namespace State

variable {s : State β} {i : Nat} {a : Addr} {old new : Pc}

def queue (s : State β) : List (Addr × NodeData (ShmFrame β)) :=
  s.shm.queue.nodes

def useMax (s : State β) : Int :=
  s.shm.queue.useMax

-- The readers that deal with the node at `a`.
def readersOf (a : Addr) (s : State β) : List Pc :=
  s.readers.filter (·.node = some a)

theorem mem_readersOf {pc : Pc} : pc ∈ s.readersOf a ↔ pc ∈ s.readers ∧ pc.node = some a := by
  simp [readersOf]

theorem set_perm (h : s.readers[i]? = some old) (new : Pc) :
    (old :: (s.setReader i new).readers).Perm (new :: s.readers) := by
  have ⟨hi, ho⟩ := List.getElem?_eq_some_iff.mp h
  have hs : s.readers = s.readers.take i ++ old :: s.readers.drop (i + 1) := by
    rw [← ho, List.getElem_cons_drop, List.take_append_drop]
  simp only [setReader, List.set_eq_take_append_cons_drop, hi, if_true]
  conv_rhs => rw [hs]
  apply ((List.perm_middle.cons old).trans (.swap new old _)).trans
  exact (List.perm_middle.symm).cons new

theorem readersOf_perm (h : s.readers[i]? = some old) (new : Pc) (a : Addr) :
    (([old].filter (·.node = some a)) ++ (s.setReader i new).readersOf a).Perm
      (([new].filter (·.node = some a)) ++ s.readersOf a) := by
  simpa only [readersOf, ← List.filter_append, List.singleton_append] using
    (set_perm h new).filter _

theorem readersOf_of_ne (h : s.readers[i]? = some old) (ho : old.node ≠ some a)
    (hn : new.node ≠ some a) : ((s.setReader i new).readersOf a).Perm (s.readersOf a) := by
  simpa [ho, hn] using readersOf_perm h new a

theorem readersOf_new (h : s.readers[i]? = some old) (ho : old.node ≠ some a)
    (hn : new.node = some a) : ((s.setReader i new).readersOf a).Perm (new :: s.readersOf a) := by
  simpa [ho, hn] using readersOf_perm h new a

theorem readersOf_old (h : s.readers[i]? = some old) (new : Pc) (ho : old.node = some a)
    (hn : new.node ≠ some a) : (old :: (s.setReader i new).readersOf a).Perm (s.readersOf a) := by
  simpa [ho, hn] using readersOf_perm h new a

theorem readersOf_last (h : s.readers[i]? = some old) (ho : old.node = some a)
    (hn : new.node = some a) (hr : (s.readersOf a).Perm [old]) :
    ((s.setReader i new).readersOf a).Perm [new] := by
  have hp : (old :: (s.setReader i new).readersOf a).Perm (new :: s.readersOf a) := by
    simpa [ho, hn] using readersOf_perm h new a
  exact (hp.trans ((hr.cons new).trans (.swap old new []))).cons_inv

end State

-- A node is not allocated, queued and held by some of the readers that have counted themselves in
-- `val`, held by the last of them, or about to be freed by the very last.
inductive Life (s : State β) (a : Addr) : Prop
  | free : s.nodes a = false → a ∉ addrs s.queue → (s.readersOf a).Perm [] → Life s a
  | queued (d : NodeData (ShmFrame β)) (n : Nat) : s.nodes a = true → (a, d) ∈ s.queue →
    d.name.ptr = s.ptr a → 0 ≤ s.used a → s.used a + n = d.val → d.val = 0 ∨ d.val < s.useMax →
    (s.readersOf a).Perm (.replicate n (.hold a s.useMax)) → Life s a
  | taken (useMax : Int) (n : Nat) : s.nodes a = true → a ∉ addrs s.queue → 0 ≤ s.used a →
    s.used a + (n + 1) = max useMax 1 →
    (s.readersOf a).Perm (.replicate (n + 1) (.hold a useMax)) → Life s a
  | freePtr : s.nodes a = true → a ∉ addrs s.queue → (s.readersOf a).Perm [.freePtr a] → Life s a
  | freeNode : s.nodes a = true → a ∉ addrs s.queue → (s.readersOf a).Perm [.freeNode a] → Life s a

inductive Place
  | node (a : Addr)
  | writer (p : Addr)

-- A node whose block is still to be freed.
def State.Busy (s : State β) (a : Addr) : Prop :=
  a ∈ addrs s.queue ∨ ∃ r ∈ s.readers, r.block = some a

def State.Own (s : State β) : Place → Addr → Prop
  | .node a, p   => s.ptr a = p ∧ s.Busy a
  | .writer q, p => q = p ∧ (s.writers q).isSome

structure Inv (s : State β) : Prop where
  freedOnce : s.doubleFree = false
  nodup     : (addrs s.queue).Nodup
  life      : ∀ a, Life s a
  owns      : Owns (fun p => s.blocks p = true) s.Own

variable {s s' : State β} {a : Addr} {i : Nat} {pc old new : Pc} {useMax : Int}

theorem Inv.nodes (h : Inv s) (hm : a ∈ addrs s.queue ∨ pc ∈ s.readersOf a) : s.nodes a = true := by
  cases h.life a
  case free _ hq hr =>
    rcases hm with hm | hm
    · exact absurd hm hq
    · exact absurd (hr.mem_iff.mp hm) List.not_mem_nil
  all_goals assumption

theorem Inv.queued {d : NodeData (ShmFrame β)} (h : Inv s) (hm : (a, d) ∈ s.queue) :
    s.nodes a = true ∧ d.name.ptr = s.ptr a ∧ 0 ≤ s.used a ∧ ∃ n : Nat, s.used a + n = d.val ∧
      (d.val = 0 ∨ d.val < s.useMax) ∧
      (s.readersOf a).Perm (.replicate n (.hold a s.useMax)) := by
  have ha : a ∈ addrs s.queue := List.mem_map_of_mem hm
  cases h.life a
  case free h₂ _      => exact absurd ha h₂
  case taken h₂ _ _ _ => exact absurd ha h₂
  case freePtr h₂ _   => exact absurd ha h₂
  case freeNode h₂ _  => exact absurd ha h₂
  case queued d' n h₁ h₂ h₃ h₄ h₅ h₆ h₇ =>
    cases List.inj_on_of_nodup_map h.nodup h₂ hm rfl
    exact ⟨h₁, h₃, h₄, n, h₅, h₆, h₇⟩

theorem Inv.own_queued {d : NodeData (ShmFrame β)} (h : Inv s) (hm : (a, d) ∈ s.queue) :
    s.Own (.node a) d.name.ptr :=
  have ⟨_, hp, _⟩ := h.queued hm
  ⟨hp.symm, .inl (List.mem_map_of_mem hm)⟩

theorem Inv.safe (h : Inv s) : Safe s where
  freedOnce := h.freedOnce
  held a useMax hm := by
    have hr : .hold a useMax ∈ s.readersOf a := State.mem_readersOf.mpr ⟨hm, rfl⟩
    exact ⟨h.nodes (.inr hr), h.owns.valid (.node a) _ ⟨rfl, .inr ⟨_, hm, rfl⟩⟩⟩

-- What a step leaves of the nodes that it is not about.
theorem Life.congr (h : Life s a) (hn : s'.nodes a = s.nodes a) (hp : s'.ptr a = s.ptr a)
    (hu : s'.used a = s.used a) (hq : ∀ d, (a, d) ∈ s'.queue ↔ (a, d) ∈ s.queue)
    (hm : s'.useMax = s.useMax) (hr : (s'.readersOf a).Perm (s.readersOf a)) : Life s' a := by
  have ha : a ∈ addrs s'.queue ↔ a ∈ addrs s.queue := by simp [hq]
  cases h
  case free h₁ h₂ h₃ => exact .free (hn ▸ h₁) (ha.not.mpr h₂) (hr.trans h₃)
  case queued d n h₁ h₂ h₃ h₄ h₅ h₆ h₇ =>
    exact .queued d n (hn ▸ h₁) ((hq d).mpr h₂) (hp ▸ h₃) (hu ▸ h₄) (hu ▸ h₅) (hm ▸ h₆)
      (hm ▸ hr.trans h₇)
  case taken u n h₁ h₂ h₃ h₄ h₅ =>
    exact .taken u n (hn ▸ h₁) (ha.not.mpr h₂) (hu ▸ h₃) (hu ▸ h₄) (hr.trans h₅)
  case freePtr h₁ h₂ h₃  => exact .freePtr (hn ▸ h₁) (ha.not.mpr h₂) (hr.trans h₃)
  case freeNode h₁ h₂ h₃ => exact .freeNode (hn ▸ h₁) (ha.not.mpr h₂) (hr.trans h₃)

theorem busy_setReader (h : (s.setReader i new).Busy a) : s.Busy a ∨ new.block = some a := by
  rcases h with hq | ⟨r, hr, hb⟩
  · exact .inl (.inl hq)
  · rcases List.mem_or_eq_of_mem_set hr with hr | rfl
    · exact .inl (.inr ⟨r, hr, hb⟩)
    · exact .inr hb

theorem busy_of_block (h : s.readers[i]? = some pc) (hb : pc.block = some a) : s.Busy a :=
  .inr ⟨pc, List.mem_of_getElem? h, hb⟩

theorem own_mono {q : Place} {p : Addr} (ho : s'.Own q p) (hp : s'.ptr = s.ptr)
    (hw : ∀ q, (s'.writers q).isSome → (s.writers q).isSome)
    (hb : ∀ a, s'.Busy a → s.Busy a) : s.Own q p := by
  cases q
  case node a   => exact ⟨hp ▸ ho.left, hb a ho.right⟩
  case writer q => exact ⟨ho.left, hw q ho.right⟩

section

-- A reader at `hold` counts itself in `used`.
theorem addAndFetch_life (h : Inv s) (hi : s.readers[i]? = some (.hold a useMax)) :
    Life (addAndFetch i a useMax s) a := by
  have hm : Pc.hold a useMax ∈ s.readersOf a :=
    State.mem_readersOf.mpr ⟨List.mem_of_getElem? hi, rfl⟩
  have hi' : { s with used := Function.update s.used a (s.used a + 1) }.readers[i]? =
    some (.hold a useMax) := hi
  cases h.life a
  case free hr     => exact absurd (hr.mem_iff.mp hm) List.not_mem_nil
  case freePtr hr  => simpa using hr.mem_iff.mp hm
  case freeNode hr => simpa using hr.mem_iff.mp hm
  case queued d n h₁ h₂ h₃ h₄ h₅ h₆ h₇ =>
    -- Readers are still to come, so this one is not the last.
    have ⟨hn, hu⟩ := List.mem_replicate.mp (h₇.mem_iff.mp hm)
    cases hu
    obtain ⟨n, rfl⟩ := Nat.exists_eq_succ_of_ne_zero hn
    have hlt : ¬s.used a + 1 ≥ s.useMax := by omega
    simp only [addAndFetch, if_neg hlt]
    refine .queued d n h₁ h₂ h₃ (by simp [State.setReader]; omega)
      (by simp [State.setReader]; omega) h₆ ?_
    have hr := State.readersOf_old hi' .loop rfl (by simp [Pc.node])
    exact (hr.trans h₇).cons_inv
  case taken u n h₁ h₂ h₃ h₄ h₅ =>
    obtain ⟨-, hu⟩ := List.mem_replicate.mp (h₅.mem_iff.mp hm)
    cases hu
    cases n
    case zero =>
      have hge : s.used a + 1 ≥ useMax := by omega
      simp only [addAndFetch, if_pos hge]
      exact .freePtr h₁ h₂ (State.readersOf_last hi' rfl rfl h₅)
    case succ n =>
      have hlt : ¬s.used a + 1 ≥ useMax := by omega
      simp only [addAndFetch, if_neg hlt]
      refine .taken useMax n h₁ h₂ (by simp [State.setReader]; omega)
        (by simp [State.setReader]; omega) ?_
      have hr := State.readersOf_old hi' .loop rfl (by simp [Pc.node])
      exact (hr.trans h₅).cons_inv

theorem addAndFetch_inv (h : Inv s) (hi : s.readers[i]? = some (.hold a useMax)) :
    Inv (addAndFetch i a useMax s) := by
  constructor
  case freedOnce => exact h.freedOnce
  case nodup     => exact h.nodup
  case life =>
    intro b
    by_cases hb : b = a
    case pos =>
      subst hb
      exact addAndFetch_life h hi
    case neg =>
      refine (h.life b).congr rfl rfl (by simp [addAndFetch, State.setReader, hb])
        (fun _ => .rfl) rfl ?_
      refine State.readersOf_of_ne (s := { s with used := _ }) hi ?_ ?_
      · simpa [Pc.node] using Ne.symm hb
      · split <;> simp [Pc.node, Ne.symm hb]
  case owns =>
    apply h.owns.mono (fun _ => id)
    intro q p ho
    refine own_mono ho rfl (fun _ => id) fun b hb => ?_
    rcases busy_setReader hb with hb | hb
    · exact hb
    · split at hb
      · exact busy_of_block hi hb
      · simp [Pc.block] at hb

theorem readersOf_freePtr (h : Inv s) (hi : s.readers[i]? = some (.freePtr a)) :
    s.nodes a = true ∧ a ∉ addrs s.queue ∧ (s.readersOf a).Perm [.freePtr a] := by
  have hm : Pc.freePtr a ∈ s.readersOf a :=
    State.mem_readersOf.mpr ⟨List.mem_of_getElem? hi, rfl⟩
  cases h.life a
  case freePtr h₁ h₂ h₃ => exact ⟨h₁, h₂, h₃⟩
  case free hr          => exact absurd (hr.mem_iff.mp hm) List.not_mem_nil
  case queued hr        => cases (List.mem_replicate.mp (hr.mem_iff.mp hm)).right
  case taken hr         => cases (List.mem_replicate.mp (hr.mem_iff.mp hm)).right
  case freeNode hr      => simpa using hr.mem_iff.mp hm

theorem readersOf_freeNode (h : Inv s) (hi : s.readers[i]? = some (.freeNode a)) :
    s.nodes a = true ∧ a ∉ addrs s.queue ∧ (s.readersOf a).Perm [.freeNode a] := by
  have hm : Pc.freeNode a ∈ s.readersOf a :=
    State.mem_readersOf.mpr ⟨List.mem_of_getElem? hi, rfl⟩
  cases h.life a
  case freeNode h₁ h₂ h₃ => exact ⟨h₁, h₂, h₃⟩
  case free hr           => exact absurd (hr.mem_iff.mp hm) List.not_mem_nil
  case queued hr         => cases (List.mem_replicate.mp (hr.mem_iff.mp hm)).right
  case taken hr          => cases (List.mem_replicate.mp (hr.mem_iff.mp hm)).right
  case freePtr hr        => simpa using hr.mem_iff.mp hm

theorem freePtr_inv (h : Inv s) (hi : s.readers[i]? = some (.freePtr a)) :
    Inv ((s.freeBlock (s.ptr a)).setReader i (.freeNode a)) := by
  have ⟨hn, hq, hr⟩ := readersOf_freePtr h hi
  have hr' : (((s.freeBlock (s.ptr a)).setReader i (.freeNode a)).readersOf a).Perm [.freeNode a] :=
    State.readersOf_last (s := s.freeBlock _) hi rfl rfl hr
  have hown : s.Own (.node a) (s.ptr a) := ⟨rfl, busy_of_block hi rfl⟩
  constructor
  case freedOnce =>
    have := h.owns.valid _ _ hown
    simp [State.setReader, State.freeBlock, h.freedOnce, this]
  case nodup => exact h.nodup
  case life =>
    intro b
    by_cases hb : b = a
    case pos =>
      subst hb
      exact .freeNode hn hq hr'
    case neg =>
      refine (h.life b).congr rfl rfl rfl (fun _ => .rfl) rfl ?_
      exact State.readersOf_of_ne (s := s.freeBlock _) hi (by simpa [Pc.node] using Ne.symm hb)
        (by simpa [Pc.node] using Ne.symm hb)
  case owns =>
    refine h.owns.release {.node a} (fun p hv hp => ?_) fun q p ho => ?_
    · have hne : p ≠ s.ptr a := fun he => hp _ rfl (he ▸ hown)
      simpa [State.setReader, State.freeBlock, hne] using hv
    refine ⟨own_mono ho rfl (fun _ => id) fun b hb => ?_, ?_⟩
    · exact (busy_setReader hb).resolve_right (by simp [Pc.block])
    -- The reader is the only one at this node, and at `freeNode` now.
    rintro rfl
    rcases ho.right with hm | ⟨r, hm, hrb⟩
    · exact hq hm
    · have hnode : r.node = some a := by cases r <;> simp_all [Pc.block, Pc.node]
      have := hr'.mem_iff.mp (State.mem_readersOf.mpr ⟨hm, hnode⟩)
      simp only [List.mem_singleton] at this
      simp [this, Pc.block] at hrb

theorem freeNode_inv (h : Inv s) (hi : s.readers[i]? = some (.freeNode a)) :
    Inv ((s.freeNode a).setReader i .loop) := by
  have ⟨hn, hq, hr⟩ := readersOf_freeNode h hi
  constructor
  case freedOnce => simp [State.setReader, State.freeNode, h.freedOnce, hn]
  case nodup     => exact h.nodup
  case life =>
    intro b
    by_cases hb : b = a
    case pos =>
      subst hb
      refine .free (by simp [State.setReader, State.freeNode]) hq ?_
      have hp := State.readersOf_old (s := s.freeNode b) hi .loop rfl (by simp [Pc.node])
      exact (hp.trans hr).cons_inv
    case neg =>
      refine (h.life b).congr (by simp [State.setReader, State.freeNode, hb]) rfl rfl
        (fun _ => .rfl) rfl ?_
      exact State.readersOf_of_ne (s := s.freeNode a) hi (by simpa [Pc.node] using Ne.symm hb)
        (by simp [Pc.node])
  case owns =>
    apply h.owns.mono (fun _ => id)
    intro q p ho
    refine own_mono ho rfl (fun _ => id) fun b hb => ?_
    exact (busy_setReader hb).resolve_right (by simp [Pc.block])

-- The reader takes the frame at `a`, which stays in the queue or not.
theorem take_inv {shm : ShmParam β} {us vs : List (Addr × NodeData (ShmFrame β))}
    {d : NodeData (ShmFrame β)} (h : Inv s) (hi : s.readers[i]? = some .loop)
    (hq : s.queue = us ++ (a, d) :: vs)
    (hs : shm.queue.nodes = if d.val + 1 ≥ s.useMax then us ++ vs
      else us ++ (a, { d with val := d.val + 1 }) :: vs)
    (hm : shm.queue.useMax = s.useMax) :
    Inv ({ s with shm := shm }.setReader i (.hold a s.useMax)) := by
  have hnd := h.nodup
  simp only [hq, addrs, List.map_append, List.map_cons, List.nodup_append, List.nodup_cons] at hnd
  obtain ⟨-, ⟨hav, -⟩, hd⟩ := hnd
  have hau : a ∉ us.map Prod.fst := fun hu => hd a hu a List.mem_cons_self rfl
  have ha : a ∈ addrs s.queue := by simp [hq]
  have hmem : ∀ b d', b ≠ a → ((b, d') ∈ shm.queue.nodes ↔ (b, d') ∈ s.queue) := by
    intro b d' hb
    rw [hs, hq]
    split <;> simp [hb]
  have hsub : (addrs shm.queue.nodes).Sublist (addrs s.queue) := by
    rw [hs, hq]
    split
    · exact ((List.sublist_cons_self _ _).append_left us).map Prod.fst
    · simp [addrs]
  constructor
  case freedOnce => exact h.freedOnce
  case nodup     => exact h.nodup.sublist hsub
  case life =>
    intro b
    by_cases hb : b = a
    case neg =>
      refine (h.life b).congr rfl rfl rfl (hmem b · hb) hm ?_
      exact State.readersOf_of_ne (s := { s with shm := shm }) hi (by simp [Pc.node])
        (by simpa [Pc.node] using Ne.symm hb)
    case pos =>
      subst hb
      have hr : ((State.setReader i (.hold b s.useMax) { s with shm := shm }).readersOf b).Perm
          (.hold b s.useMax :: s.readersOf b) :=
        State.readersOf_new (s := { s with shm := shm }) hi (by simp [Pc.node]) rfl
      have hd' : (b, d) ∈ s.queue := by simp [hq]
      have ⟨h₁, h₃, h₄, n, h₅, h₆, h₇⟩ := h.queued hd'
      have hp : ∀ u, u = s.useMax → ((State.setReader i (.hold b s.useMax)
          { s with shm := shm }).readersOf b).Perm (.replicate (n + 1) (.hold b u)) := by
        rintro _ rfl
        exact hr.trans (h₇.cons _)
      by_cases hl : d.val + 1 ≥ s.useMax
      case pos =>
        rw [if_pos hl] at hs
        refine .taken s.useMax n h₁ ?_ h₄ (by simp [State.setReader]; omega) (hp _ rfl)
        simp [State.setReader, State.queue, hs, addrs, hau, hav]
      case neg =>
        rw [if_neg hl] at hs
        refine .queued { d with val := d.val + 1 } (n + 1) h₁ ?_ h₃ h₄ ?_ ?_ ?_
        · simp [State.setReader, State.queue, hs]
        · simp [State.setReader]
          omega
        · exact .inr (by simpa [State.useMax, State.setReader, hm] using hl)
        · exact hp _ hm
  case owns =>
    apply h.owns.mono (fun _ => id)
    intro q p ho
    refine own_mono ho rfl (fun _ => id) fun b hb => ?_
    rcases busy_setReader hb with (hb | hb) | hb
    · exact .inl (hsub.subset hb)
    · exact .inr hb
    · cases hb
      exact .inl ha

theorem putToShmQueue_inv {p : Addr} {w : Write β} {node : Ptr} (h : Inv s)
    (hw : s.writers p = some (.put w)) (hn : node.any s.nodes = false) :
    Inv (putToShmQueue p w node s) := by
  rcases Shm.copyToShm_cases w.buf w.size w.frameId w.type w.max p node s.shm with
    ⟨hr, hs⟩ | ⟨a, rfl, hc⟩
  case inl =>
    simp only [putToShmQueue, hr, hs]
    refine ⟨h.freedOnce, h.nodup, fun b => (h.life b).congr rfl rfl rfl (fun _ => .rfl) rfl .rfl,
      h.owns.mono (fun _ => id) fun q p' ho => own_mono ho rfl (fun q hq => ?_) fun _ => id⟩
    by_cases hqp : q = p
    case pos => simp [hqp, hw]
    case neg => simpa [State.setWriter, hqp] using hq
  case inr =>
    replace hn : s.nodes a = false := hn
    have hfree : a ∉ addrs s.queue ∧ (s.readersOf a).Perm [] := by
      cases h.life a
      case free h₁ h₂ => exact ⟨h₁, h₂⟩
      all_goals simp_all
    simp only [putToShmQueue, hc]
    constructor
    case freedOnce => exact h.freedOnce
    case nodup =>
      simp only [State.queue, State.setWriter, addrs, List.map_append, ne_eq, not_true, if_false]
      refine List.nodup_append.mpr ⟨h.nodup, by simp, fun x hx y hy he => hfree.left ?_⟩
      rw [List.map_singleton, List.mem_singleton] at hy
      exact (he.trans hy : x = a) ▸ hx
    case life =>
      intro b
      by_cases hb : b = a
      case pos =>
        subst hb
        refine .queued ⟨⟨w.type, p, w.buf, w.size, w.frameId⟩, 0, none⟩ 0 ?_ ?_ ?_ ?_ ?_ (.inl rfl)
          hfree.right <;> simp [State.queue, State.setWriter]
      case neg =>
        refine (h.life b).congr ?_ ?_ ?_ (fun d => ?_) rfl .rfl <;>
          simp [State.queue, State.setWriter, hb]
    case owns =>
      refine h.owns.transfer (i := .writer p) (j := .node a) (a := p) ⟨rfl, by simp [hw]⟩ ?_
      rintro (b | q) p' ho
      case node =>
        have ⟨hp, hb⟩ := ho
        by_cases hba : b = a
        case pos =>
          subst hba
          exact .inr ⟨rfl, by simpa [State.setWriter] using hp.symm⟩
        case neg =>
          refine .inl ⟨⟨by simpa [State.setWriter, hba] using hp, ?_⟩, by simp⟩
          apply hb.imp_left
          intro hm
          simpa [State.queue, State.setWriter, hba] using hm
      case writer =>
        have hq : q ≠ p := by
          rintro rfl
          simpa [State.setWriter] using ho.right
        exact .inl ⟨⟨ho.left, by simpa [State.setWriter, hq] using ho.right⟩, by simpa using hq⟩

theorem malloc_inv {p : Addr} {w : Write β} (h : Inv s) (hp : ¬s.blocks p = true) :
    Inv ({ s with blocks := Function.update s.blocks p true }.setWriter p (some (.put w))) := by
  refine ⟨h.freedOnce, h.nodup, fun b => (h.life b).congr rfl rfl rfl (fun _ => .rfl) rfl .rfl,
    h.owns.acquire (i := .writer p) hp (fun q hq => ?_) (by simp [State.setWriter]) ?_⟩
  case refine_1 =>
    simp only [State.setWriter, Function.update_apply]
    split
    · rfl
    · exact hq
  case refine_2 =>
    rintro (b | q) p' ho
    case node => exact .inl ho
    case writer =>
      by_cases hq : q = p
      case pos => exact .inr ⟨by rw [hq], by rw [← ho.left, hq]⟩
      case neg => exact .inl ⟨ho.left, by simpa [State.setWriter, hq] using ho.right⟩

theorem free_inv {p : Addr} (h : Inv s) (hw : s.writers p = some .free) :
    Inv ((s.freeBlock p).setWriter p none) := by
  have hown : s.Own (.writer p) p := ⟨rfl, by simp [hw]⟩
  refine ⟨?_, h.nodup, fun b => (h.life b).congr rfl rfl rfl (fun _ => .rfl) rfl .rfl,
    h.owns.release {.writer p} (fun q hv hq => ?_) ?_⟩
  case refine_1 =>
    have := h.owns.valid _ _ hown
    simp [State.setWriter, State.freeBlock, h.freedOnce, this]
  case refine_2 =>
    have hne : q ≠ p := fun he => hq _ rfl (he ▸ hown)
    simpa [State.setWriter, State.freeBlock, hne] using hv
  case refine_3 =>
    rintro (b | q) p' ho
    case node => exact ⟨ho, nofun⟩
    case writer =>
      have hq : q ≠ p := by
        rintro rfl
        simpa [State.setWriter] using ho.right
      exact ⟨⟨ho.left, by simpa [State.setWriter, State.freeBlock, hq] using ho.right⟩,
        fun he => hq (Place.writer.inj he)⟩

-- What `freeShmQueue` frees, given by the nodes it goes over.
structure Freed (xs : List (Addr × NodeData (ShmFrame β))) (s s' : State β) : Prop where
  shm     : s'.shm = s.shm
  ptr     : s'.ptr = s.ptr
  used    : s'.used = s.used
  writers : s'.writers = s.writers
  readers : s'.readers = s.readers
  nodes   : ∀ a, s'.nodes a = true ↔ s.nodes a = true ∧ a ∉ addrs xs
  blocks  : ∀ p, s'.blocks p = true ↔ s.blocks p = true ∧ p ∉ xs.map (·.2.name.ptr)

theorem freed (xs : List (Addr × NodeData (ShmFrame β))) (s : State β) :
    Freed xs s (xs.foldl (fun s x => (s.freeBlock x.2.name.ptr).freeNode x.1) s) := by
  induction xs generalizing s
  case nil => exact ⟨rfl, rfl, rfl, rfl, rfl, by simp, by simp⟩
  case cons x xs hi =>
    have h := hi ((s.freeBlock x.2.name.ptr).freeNode x.1)
    refine ⟨h.shm, h.ptr, h.used, h.writers, h.readers, fun a => ?_, fun p => ?_⟩
    · rw [List.foldl_cons, h.nodes]
      simp only [State.freeNode, State.freeBlock, Function.update_apply, addrs, List.map_cons,
        List.mem_cons, not_or]
      split <;> simp_all
    · rw [List.foldl_cons, h.blocks]
      simp only [State.freeNode, State.freeBlock, Function.update_apply, List.map_cons,
        List.mem_cons, not_or]
      split <;> simp_all

-- No free of it is the second of its block or node.
theorem freedOnce_foldl {xs : List (Addr × NodeData (ShmFrame β))} (h : s.doubleFree = false)
    (hn : (addrs xs).Nodup) (hp : (xs.map (·.2.name.ptr)).Nodup)
    (ha : ∀ x ∈ xs, s.nodes x.1 = true ∧ s.blocks x.2.name.ptr = true) :
    (xs.foldl (fun s x => (s.freeBlock x.2.name.ptr).freeNode x.1) s).doubleFree = false := by
  induction xs generalizing s
  case nil => exact h
  case cons x xs hi =>
    have ⟨hnx, hn⟩ := List.nodup_cons.mp hn
    have ⟨hpx, hp⟩ := List.nodup_cons.mp hp
    have ⟨hx, ha⟩ := List.forall_mem_cons.mp ha
    refine hi ?_ hn hp fun y hy => ?_
    · simp [State.freeNode, State.freeBlock, h, hx]
    · have hne : y.1 ≠ x.1 := fun he => hnx (he ▸ List.mem_map_of_mem hy)
      have hnp : y.2.name.ptr ≠ x.2.name.ptr :=
        fun he => hpx (List.mem_map.mpr ⟨y, hy, he⟩)
      simpa [State.freeNode, State.freeBlock, hne, hnp] using ha y hy

theorem setShmUser_inv {val : Int} (h : Inv s)
    (hq : ∀ a ∈ addrs s.queue, ∀ useMax, .hold a useMax ∉ s.readers) : Inv (setShmUser val s) := by
  have f := freed s.queue s
  -- No reader deals with a queued node, as it would hold it.
  have hnone : ∀ a ∈ addrs s.queue, (s.readersOf a).Perm [] := by
    intro a ha
    obtain ⟨⟨_, d⟩, hm, rfl⟩ := List.mem_map.mp ha
    obtain ⟨-, -, -, n, -, -, hn⟩ := h.queued hm
    cases n
    case zero   => exact hn
    case succ n =>
      have hh := hn.mem_iff.mpr (List.mem_replicate.mpr ⟨n.succ_ne_zero, rfl⟩)
      exact absurd (State.mem_readersOf.mp hh).left (hq _ ha _)
  constructor
  case freedOnce =>
    refine freedOnce_foldl h.freedOnce h.nodup (h.nodup.of_map.map_on fun x hx y hy he => ?_) ?_
    · have hn := h.owns.inj _ _ _ (h.own_queued hx) (he ▸ h.own_queued hy)
      exact List.inj_on_of_nodup_map h.nodup hx hy (Place.node.inj hn)
    · intro x hx
      have ⟨hn, _⟩ := h.queued hx
      exact ⟨hn, h.owns.valid _ _ (h.own_queued hx)⟩
  case nodup => exact List.nodup_nil
  case life =>
    intro b
    have hr : (setShmUser val s).readersOf b = s.readersOf b :=
      congrArg (List.filter _) f.readers
    by_cases hb : b ∈ addrs s.queue
    case pos =>
      refine .free ?_ List.not_mem_nil (hr ▸ hnone b hb)
      exact Bool.eq_false_iff.mpr fun hn => ((f.nodes b).mp hn).right hb
    case neg =>
      have hn : (setShmUser val s).nodes b = s.nodes b := Bool.eq_iff_iff.mpr <|
        (f.nodes b).trans (and_iff_left hb)
      have hu : (setShmUser val s).used b = s.used b := congrFun f.used b
      cases h.life b
      case free h₁ h₂ h₃        => exact .free (hn ▸ h₁) List.not_mem_nil (hr ▸ h₃)
      case queued h₂ _ _ _ _ _  => exact absurd (List.mem_map_of_mem h₂) hb
      case taken u n h₁ _ h₃ h₄ h₅ =>
        exact .taken u n (hn ▸ h₁) List.not_mem_nil (hu ▸ h₃) (hu ▸ h₄) (hr ▸ h₅)
      case freePtr h₁ _ h₃      => exact .freePtr (hn ▸ h₁) List.not_mem_nil (hr ▸ h₃)
      case freeNode h₁ _ h₃     => exact .freeNode (hn ▸ h₁) List.not_mem_nil (hr ▸ h₃)
  case owns =>
    refine h.owns.release {q | ∃ a ∈ addrs s.queue, q = .node a} (fun p hv hp => ?_) ?_
    case refine_1 =>
      refine (f.blocks p).mpr ⟨hv, fun hm => ?_⟩
      obtain ⟨⟨a, d⟩, hx, rfl⟩ := List.mem_map.mp hm
      exact hp _ ⟨a, List.mem_map_of_mem hx, rfl⟩ (h.own_queued hx)
    case refine_2 =>
      intro q p ho
      refine ⟨own_mono ho f.ptr (fun q hq => f.writers ▸ hq) fun b hb => ?_, ?_⟩
      · exact .inr (f.readers ▸ hb.resolve_left List.not_mem_nil)
      · rintro ⟨a, ha, rfl⟩
        have ⟨r, hr, hrb⟩ := ho.right.resolve_left List.not_mem_nil
        have hnode : r.node = some a := by cases r <;> simp_all [Pc.block, Pc.node]
        have hm := State.mem_readersOf.mpr ⟨f.readers ▸ hr, hnode⟩
        exact absurd ((hnone a ha).mem_iff.mp hm) List.not_mem_nil

theorem Inv.setReader (h : Inv s) (hi : s.readers[i]? = some old) (ho : old.node = none)
    (hn : new.node = none) : Inv (s.setReader i new) := by
  constructor
  case freedOnce => exact h.freedOnce
  case nodup     => exact h.nodup
  case life =>
    intro b
    refine (h.life b).congr rfl rfl rfl (fun _ => .rfl) rfl ?_
    exact State.readersOf_of_ne hi (by simp [ho]) (by simp [hn])
  case owns =>
    apply h.owns.mono (fun _ => id)
    intro q p hown
    refine own_mono hown rfl (fun _ => id) fun b hb => ?_
    exact (busy_setReader hb).resolve_right (by cases new <;> simp_all [Pc.block, Pc.node])

theorem join_inv {val : Int} (h : Inv s) (hi : s.readers[i]? = some old) (ho : old.node = none)
    (hn : new.node = none)
    (hq : ∀ a ∈ addrs s.queue, ∀ useMax, .hold a useMax ∉ s.readers) :
    Inv ((setShmUser val s).setReader i new) := by
  have hr : (setShmUser val s).readers = s.readers := (freed s.queue s).readers
  exact (setShmUser_inv h hq).setReader (hr ▸ hi) ho hn

theorem copyFromShmWithUser_inv {frameId : Int} (h : Inv s) (hi : s.readers[i]? = some .loop) :
    Inv (copyFromShmWithUser i frameId s) := by
  rcases Shm.copyFromShmWithUser_cases frameId s.shm with
    ⟨-, hc⟩ | ⟨us, a, d, vs, hq, -, -, hc⟩
  case inl =>
    simp only [copyFromShmWithUser, hc]
    exact h
  case inr =>
    simp only [copyFromShmWithUser, hc]
    exact take_inv h hi hq rfl rfl

end

theorem Step.inv {l : Label β} (h : Inv s) (hq : Quiet s l) (e : Step s l s') : Inv s' := by
  cases l <;>
    simp only [Step, exec, Option.ite_none_right_eq_some, Option.ite_none_left_eq_some] at e
  case join i =>
    have ⟨hi, e⟩ := e
    cases e
    exact join_inv h hi rfl rfl hq
  case leave i =>
    have ⟨hi, e⟩ := e
    cases e
    exact join_inv h hi rfl rfl hq
  case take i frameId =>
    have ⟨hi, e⟩ := e
    cases e
    exact copyFromShmWithUser_inv h hi
  case finish i =>
    split at e <;> cases e
    case h_1 hi => exact addAndFetch_inv h hi
    case h_2 hi => exact freePtr_inv h hi
    case h_3 hi => exact freeNode_inv h hi
  case malloc p w =>
    have ⟨hp, e⟩ := e
    cases e
    exact malloc_inv h hp
  case put p node =>
    split at e
    case h_2 => cases e
    case h_1 w hw =>
      have ⟨hn, e⟩ := Option.ite_none_left_eq_some.mp e
      cases e
      exact putToShmQueue_inv h hw (by simpa using hn)
  case free p =>
    split at e <;> cases e
    case h_1 hw => exact free_inv h hw

-- Otherwise the reader still holds the frame when `setShmUser` frees it.
theorem setShmUser_quiet {val : Int} (hi : s.readers[i]? = some old) (ho : old.node = none)
    (h : Safe ((setShmUser val s).setReader i new)) :
    ∀ a ∈ addrs s.queue, ∀ useMax, .hold a useMax ∉ s.readers := by
  intro a ha useMax hm
  have f := freed s.queue s
  have hr : (setShmUser val s).readers = s.readers := f.readers
  have hold : Pc.hold a useMax ∈ ((setShmUser val s).setReader i new).readers := by
    have hp := (State.set_perm (s := setShmUser val s) (hr ▸ hi) new).mem_iff.mpr
      (List.mem_cons_of_mem _ (hr ▸ hm))
    apply (List.mem_cons.mp hp).resolve_left
    rintro rfl
    cases ho
  exact ((f.nodes a).mp (h.held a useMax hold).left).right ha

theorem Step.quiet {l : Label β} (e : Step s l s') (h : Safe s') : Quiet s l := by
  cases l <;> try trivial
  case join i =>
    have ⟨hi, e⟩ := Option.ite_none_right_eq_some.mp e
    cases e
    exact setShmUser_quiet hi rfl h
  case leave i =>
    have ⟨hi, e⟩ := Option.ite_none_right_eq_some.mp e
    cases e
    exact setShmUser_quiet hi rfl h

-- Memory is freed once, and not under a reader, in exactly those runs in which readers join and
-- leave while no queued frame is held.
theorem safe_iff_quiet {type : CStr} {n : Nat} {tr : List (State β × Label β)}
    (r : Run Step { shm := { type := type }, readers := .replicate n .out } tr s) :
    Run.Always Safe tr s ↔ Run.Meets Quiet tr := by
  refine r.always_iff_meets (fun _ _ _ h hq e => e.inv h hq) (fun _ h => h.safe)
    (fun _ _ _ _ e h => e.quiet h) ⟨rfl, List.nodup_nil, fun a => ?_, .empty ?_⟩
  case refine_1 =>
    refine .free rfl List.not_mem_nil ?_
    simp [State.readersOf, Pc.node]
  case refine_2 =>
    rintro (a | p) q ⟨-, ho⟩
    · rcases ho with ha | ⟨r, hr, hb⟩
      · exact List.not_mem_nil ha
      · rw [List.eq_of_mem_replicate hr] at hb
        cases hb
    · cases ho

section

def write : Write Unit := ⟨(), 4, 1, 101, 25⟩

def readers : State Unit where
  shm := { type := "video" }
  readers := .replicate 2 .out

-- Two readers share a frame, and the second one frees it.
def sharing : List (Label Unit) := [
  .join 0, .join 1, .malloc 64 write, .put 64 (some 128), .take 0 0, .take 1 0, .finish 0,
  .finish 1, .finish 1, .finish 1, .leave 1]

theorem safe_iff_quiet_witness :
    ∃ s, Run Step readers (Run.partialTrace exec sharing readers) s ∧
      Run.Always Safe (Run.partialTrace exec sharing readers) s ∧ s.blocks 64 = false := by
  have r := Run.of_partialTrace exec sharing readers rfl
  refine ⟨_, r, (safe_iff_quiet r).mpr ?_, rfl⟩
  refine Run.meets_cons.mpr ⟨nofun, Run.meets_cons.mpr ⟨nofun, ?_⟩⟩
  iterate 8 refine Run.meets_cons.mpr ⟨trivial, ?_⟩
  exact Run.meets_cons.mpr ⟨nofun, Run.meets_nil⟩

-- A reader leaves while the other reads a frame, which is freed then.
theorem freed_while_held :
    ¬∀ (type : CStr) (n : Nat) (tr : List (State Unit × Label Unit)) (s : State Unit),
      Run Step { shm := { type := type }, readers := .replicate n .out } tr s → Safe s := by
  intro h
  have ⟨s, r, hs⟩ := Run.exists_partialTrace exec
    [.join 0, .join 1, .malloc 64 write, .put 64 (some 128), .take 0 0, .leave 1] readers
    (fun s => s.readers = [.hold 128 2, .out] ∧ s.nodes 128 = false) (by decide)
  simp only [decide_eq_true_eq] at hs
  have hh := ((h _ _ _ s r).held 128 2 (by simp [hs.left])).left
  exact absurd (hh.symm.trans hs.right) (by decide)

end

end Readers
