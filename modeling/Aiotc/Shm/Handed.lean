import Aiotc.Library.Log
import Aiotc.Shm.Delivery

-- Readers that go on from the frame they were handed last, and when a frame is freed.

open Heap Log

namespace Delivery

variable {β : Type}

-- The readers that have finished a frame, and those that have freed its payload and its node.
structure Fate where
  finished : List Nat
  freedPtr : List Nat
  freedNode : List Nat

-- All `n` readers have finished the frame, `i` the last of them.
structure Fate.Ended (f : Fate) (n i : Nat) (freedPtr freedNode : List Nat) : Prop where
  all       : f.finished.length = n
  last      : f.finished.getLast? = some i
  freedPtr  : f.freedPtr = freedPtr
  freedNode : f.freedNode = freedNode

def State.fate (s : State β) (frameId : Int) : Fate :=
  ⟨actors frameId s.finished, actors frameId s.freedPtr, actors frameId s.freedNode⟩

-- A frame is not freed before all readers have finished it, and then by the last of them, which
-- still has to call `shmFree` twice, once, or not any more.
inductive Freed (n : Nat) (s : State β) (frameId : Int) : Prop
  | shared : (s.fate frameId).finished.length < n → (s.fate frameId).freedPtr = [] →
    (s.fate frameId).freedNode = [] → Freed n s frameId
  | freePtr (i : Nat) (a : Addr) : (s.fate frameId).Ended n i [] [] →
    s.rs.readers[i]? = some (.freePtr a) → s.frameAt a = frameId → Freed n s frameId
  | freeNode (i : Nat) (a : Addr) : (s.fate frameId).Ended n i [i] [] →
    s.rs.readers[i]? = some (.freeNode a) → s.frameAt a = frameId → Freed n s frameId
  | freed (i : Nat) : (s.fate frameId).Ended n i [i] [i] → Freed n s frameId

-- Each reader is handed the frames once and in their order, what is ahead of it is queued, and a
-- frame is out of the queue when all readers were handed it. They finish the frames in the same
-- order, and the last one to finish a frame frees it: what is allocated are the nodes and payloads
-- of the frames of which this is not freed yet, and the payloads of calls that are not over.
structure HandedOnce (n : Nat) (s : State β) : Prop where
  ids       : (s.accepted.map ShmFrame.frameId).Nodup
  received  : ∀ fs ∈ s.received, ∃ ahead, s.accepted = fs ++ ahead ∧ ahead <:+ s.queued
  queued    : ∀ f ∈ s.accepted, f ∉ s.queued ↔ ∀ fs ∈ s.received, f ∈ fs
  finished  : ∀ i fs, s.received[i]? = some fs → acts i s.finished <+: fs.map ShmFrame.frameId
  once      : ∀ frameId, (s.fate frameId).finished.Nodup
  freedOnce : s.rs.doubleFree = false
  freed     : ∀ f ∈ s.accepted, Freed n s f.frameId
  nodes     : ∀ a, s.rs.nodes a = true → ∃ f ∈ s.accepted, s.frameAt a = f.frameId
  node      : ∀ f ∈ s.accepted, (s.fate f.frameId).freedNode = [] ↔
    ∃ a, s.rs.nodes a = true ∧ s.frameAt a = f.frameId
  blocks    : ∀ p, s.rs.blocks p = true ↔ (s.rs.writers p).isSome ∨
    ∃ f ∈ s.accepted, f.ptr = p ∧ (s.fate f.frameId).freedPtr = []

namespace State

-- The frame that a reader has not finished.
def pending (i : Nat) (s : State β) : List Int :=
  match s.rs.readers[i]? with
  | some (.hold a _) => [s.frameAt a]
  | _                => []

def handed (i : Nat) (s : State β) : List Int :=
  (s.received[i]?.getD []).map ShmFrame.frameId

end State

def Station (n : Nat) (s : State β) (i : Nat) : Readers.Pc → Prop
  | .hold _ useMax => useMax = n
  | .freePtr a     => (s.fate (s.frameAt a)).Ended n i [] []
  | .freeNode a    => (s.fate (s.frameAt a)).Ended n i [i] []
  | _              => True

structure Ledger (n : Nat) (s : State β) : Prop where
  order    : Order s
  pos      : 1 ≤ n
  length   : s.received.length = n
  stations : ∀ i pc, s.rs.readers[i]? = some pc → Station n s i pc
  freed    : ∀ f ∈ s.accepted, Freed n s f.frameId
  pending  : ∀ i, acts i s.finished ++ s.pending i = s.handed i
  used     : ∀ a, s.rs.nodes a = true → (∃ f ∈ s.accepted, f.frameId = s.frameAt a) ∧
    s.rs.used a = (s.fate (s.frameAt a)).finished.length
  inj      : ∀ a b, s.rs.nodes a = true → s.rs.nodes b = true → s.frameAt a = s.frameAt b → a = b
  queue    : ∀ x ∈ s.rs.queue, s.frameAt x.1 = x.2.name.frameId
  known    : ∀ x ∈ s.finished ++ s.freedPtr ++ s.freedNode, ∃ f ∈ s.accepted, f.frameId = x.2

-- What is allocated belongs to someone.
structure Stock (s : State β) : Prop where
  ptr    : ∀ a, s.rs.nodes a = true → ∀ f ∈ s.accepted, f.frameId = s.frameAt a →
    s.rs.ptr a = f.ptr
  blocks : ∀ p, s.rs.blocks p = true → (s.rs.writers p).isSome ∨
    ∃ f ∈ s.accepted, f.ptr = p ∧ (s.fate f.frameId).freedPtr = []

variable {s s' : State β} {n i : Nat} {a : Addr} {useMax : Int}

theorem Fate.Ended.eq {f : Fate} {j : Nat} {ps ns qs ms : List Nat} (hi : f.Ended n i ps ns)
    (hj : f.Ended n j qs ms) : i = j :=
  Option.some.inj (hi.last.symm.trans hj.last)

-- What a step leaves of the readers and the frames that it is not about.

theorem Station.congr {pc : Readers.Pc} (h : Station n s i pc)
    (hf : ∀ a, pc = .freePtr a ∨ pc = .freeNode a →
      s'.fate (s'.frameAt a) = s.fate (s.frameAt a)) : Station n s' i pc := by
  cases pc
  case freePtr a =>
    simp only [Station, hf a (.inl rfl)]
    exact h
  case freeNode a =>
    simp only [Station, hf a (.inr rfl)]
    exact h
  all_goals exact h

theorem pending_congr (hr : s'.rs.readers[i]? = s.rs.readers[i]?)
    (hf : ∀ a useMax, s.rs.readers[i]? = some (.hold a useMax) → s'.frameAt a = s.frameAt a) :
    s'.pending i = s.pending i := by
  simp only [State.pending, hr]
  split
  case h_1 hi => rw [hf _ _ hi]
  case h_2    => rfl

theorem Freed.congr {frameId : Int} (h : Freed n s frameId) (hf : s'.fate frameId = s.fate frameId)
    (hr : ∀ (i : Nat) (a : Addr), s.frameAt a = frameId →
      s.rs.readers[i]? = some (Readers.Pc.freePtr a) ∨
        s.rs.readers[i]? = some (Readers.Pc.freeNode a) →
      s'.rs.readers[i]? = s.rs.readers[i]? ∧ s'.frameAt a = s.frameAt a) :
    Freed n s' frameId := by
  cases h
  case shared h₁ h₂ h₃ => exact .shared (hf ▸ h₁) (hf ▸ h₂) (hf ▸ h₃)
  case freePtr i a h₁ h₂ h₃ =>
    have ⟨hi, ha⟩ := hr i a h₃ (.inl h₂)
    exact .freePtr i a (hf ▸ h₁) (hi.trans h₂) (ha.trans h₃)
  case freeNode i a h₁ h₂ h₃ =>
    have ⟨hi, ha⟩ := hr i a h₃ (.inr h₂)
    exact .freeNode i a (hf ▸ h₁) (hi.trans h₂) (ha.trans h₃)
  case freed i h => exact .freed i (hf ▸ h)

-- What a reader holds has not been finished by all.
theorem Ledger.used_lt (h : Ledger n s) (hi : s.rs.readers[i]? = some (.hold a useMax)) :
    s.rs.nodes a = true ∧ (s.fate (s.frameAt a)).finished.length < n := by
  have hb := h.order.base
  have hm : .hold a useMax ∈ s.rs.readersOf a :=
    Readers.State.mem_readersOf.mpr ⟨List.mem_of_getElem? hi, rfl⟩
  have hn := hb.nodes (.inr hm)
  refine ⟨hn, ?_⟩
  have hu := (h.used a hn).right
  have hmax : s.rs.useMax = n := h.order.useMax.trans (by rw [h.length])
  have hst : useMax = n := h.stations i _ hi
  cases hb.life a
  case free hr => exact absurd (hr.mem_iff.mp hm) List.not_mem_nil
  case queued d k h₁ h₂ h₃ h₄ h₅ h₆ h₇ =>
    have := List.mem_replicate.mp (h₇.mem_iff.mp hm)
    omega
  case taken u k h₁ h₂ h₃ h₄ h₅ =>
    have hk := List.mem_replicate.mp (h₅.mem_iff.mp hm)
    cases hk.right
    have := h.pos
    omega
  case freePtr hr  => simpa using hr.mem_iff.mp hm
  case freeNode hr => simpa using hr.mem_iff.mp hm

-- The only reader that frees the node at `a` is `i`, which goes on from `old` to `new`.
structure Moves (s s' : State β) (i : Nat) (a : Addr) (old new : Readers.Pc) : Prop where
  reader   : s.rs.readers[i]? = some old
  readers  : s'.rs.readers = s.rs.readers.set i new
  node     : s.rs.nodes a = true
  shm      : s'.rs.shm = s.rs.shm
  nodes    : ∀ b, s'.rs.nodes b = true → s.rs.nodes b = true
  frameAt  : s'.frameAt = s.frameAt
  accepted : s'.accepted = s.accepted
  received : s'.received = s.received
  fate     : ∀ frameId, frameId ≠ s.frameAt a → s'.fate frameId = s.fate frameId
  known    : ∀ x ∈ s'.finished ++ s'.freedPtr ++ s'.freedNode,
    x ∈ s.finished ++ s.freedPtr ++ s.freedNode ∨ x.2 = s.frameAt a
  acts     : ∀ j, j ≠ i → acts j s'.finished = acts j s.finished
  only     : ∀ (j : Nat) (b : Addr), s.rs.readers[j]? = some (Readers.Pc.freePtr b) ∨
    s.rs.readers[j]? = some (Readers.Pc.freeNode b) → s.frameAt b = s.frameAt a → j = i

theorem Ledger.moves {old new : Readers.Pc} (h : Ledger n s) (ho : Order s')
    (m : Moves s s' i a old new) (hst : Station n s' i new) (hf : Freed n s' (s.frameAt a))
    (hold : ∀ b, old = .freePtr b ∨ old = .freeNode b → b = a)
    (hp : Log.acts i s'.finished ++ s'.pending i = s.handed i)
    (hu : ∀ b, s'.rs.nodes b = true →
      s'.rs.used b = (s'.fate (s.frameAt b)).finished.length) : Ledger n s' := by
  have hother : ∀ j, j ≠ i → s'.rs.readers[j]? = s.rs.readers[j]? := by
    intro j hj
    rw [m.readers, List.getElem?_set_ne hj.symm]
  constructor
  case order  => exact ho
  case pos    => exact h.pos
  case length => exact m.received ▸ h.length
  case stations =>
    intro j pc hj
    by_cases hji : j = i
    case pos =>
      have hl := (List.getElem?_eq_some_iff.mp m.reader).choose
      rw [m.readers, hji, List.getElem?_set_self hl] at hj
      cases hj
      exact hji ▸ hst
    case neg =>
      rw [hother j hji] at hj
      apply (h.stations j pc hj).congr
      intro b hb
      rw [m.frameAt]
      refine m.fate _ fun he => hji (m.only j b ?_ he)
      cases hb
      case inl hb => exact .inl (hb ▸ hj)
      case inr hb => exact .inr (hb ▸ hj)
  case freed =>
    intro f hfa
    rw [m.accepted] at hfa
    by_cases he : f.frameId = s.frameAt a
    case pos => exact he ▸ hf
    case neg =>
      refine (h.freed f hfa).congr (m.fate _ he) fun j b hb hj => ⟨hother j ?_, by rw [m.frameAt]⟩
      rintro rfl
      rw [m.reader, Option.some.injEq, Option.some.injEq] at hj
      exact he (hb.symm.trans (by rw [hold b hj]))
  case pending =>
    intro j
    have hh : s'.handed j = s.handed j := by rw [State.handed, m.received, State.handed]
    by_cases hji : j = i
    case pos => rw [hh, hji, hp]
    case neg =>
      have hp : s'.pending j = s.pending j :=
        pending_congr (hother j hji) fun _ _ _ => by rw [m.frameAt]
      rw [hh, ← h.pending j, m.acts j hji, hp]
  case used =>
    intro b hb
    rw [m.accepted, m.frameAt]
    exact ⟨(h.used b (m.nodes b hb)).left, hu b hb⟩
  case inj =>
    intro b c hb hc he
    rw [m.frameAt] at he
    exact h.inj b c (m.nodes b hb) (m.nodes c hc) he
  case queue =>
    intro x hx
    rw [m.frameAt]
    exact h.queue x (by simpa [Readers.State.queue, m.shm] using hx)
  case known =>
    intro x hx
    rw [m.accepted]
    cases m.known x hx
    case inl hx => exact h.known x hx
    case inr hx => exact hx ▸ (h.used a m.node).left

-- All readers have finished what one of them is about to free.
theorem Ledger.ended {j : Nat} {b : Addr} (h : Ledger n s)
    (hj : s.rs.readers[j]? = some (Readers.Pc.freePtr b) ∨
      s.rs.readers[j]? = some (Readers.Pc.freeNode b)) :
    ∃ ps, (s.fate (s.frameAt b)).Ended n j ps [] := by
  cases hj
  case inl hj => exact ⟨[], h.stations j _ hj⟩
  case inr hj => exact ⟨[j], h.stations j _ hj⟩

theorem Ledger.not_ended (h : Ledger n s) (hi : s.rs.readers[i]? = some (.hold a useMax))
    {j : Nat} {ps ns : List Nat} : ¬(s.fate (s.frameAt a)).Ended n j ps ns := by
  intro he
  have := (h.used_lt hi).right
  have := he.all
  omega

-- What a reader holds is not freed.
theorem Ledger.shared (h : Ledger n s) (hi : s.rs.readers[i]? = some (.hold a useMax)) :
    (s.fate (s.frameAt a)).freedPtr = [] ∧ (s.fate (s.frameAt a)).freedNode = [] := by
  have ⟨f, hf, hfa⟩ := (h.used a (h.used_lt hi).left).left
  have hne : ∀ j ps ns, ¬(s.fate (s.frameAt a)).Ended n j ps ns := fun _ _ _ => h.not_ended hi
  rw [← hfa] at hne ⊢
  cases h.freed f hf
  case shared h₁ h₂ h₃    => exact ⟨h₂, h₃⟩
  case freePtr j _ he _ _  => exact absurd he (hne j _ _)
  case freeNode j _ he _ _ => exact absurd he (hne j _ _)
  case freed j he          => exact absurd he (hne j _ _)

theorem Ledger.hold_step (h : Ledger n s) (hi : s.rs.readers[i]? = some (.hold a useMax))
    (ho : Order { s with
      rs := Readers.addAndFetch i a useMax s.rs, finished := s.finished ++ [(i, s.frameAt a)] }) :
    Ledger n { s with
      rs := Readers.addAndFetch i a useMax s.rs
      finished := s.finished ++ [(i, s.frameAt a)] } := by
  have ⟨hn, hlt⟩ := h.used_lt hi
  have ⟨hp, hno⟩ := h.shared hi
  have hu := (h.used a hn).right
  have hst : useMax = n := h.stations i _ hi
  let s' : State β := { s with
    rs := Readers.addAndFetch i a useMax s.rs, finished := s.finished ++ [(i, s.frameAt a)] }
  have hfin : (s'.fate (s.frameAt a)).finished = (s.fate (s.frameAt a)).finished ++ [i] :=
    actors_append_self
  have hfate : ∀ frameId, frameId ≠ s.frameAt a → s'.fate frameId = s.fate frameId := by
    intro frameId hne
    simp only [State.fate, s', actors_append_of_ne hne]
  have hended : s.rs.used a + 1 ≥ useMax → (s'.fate (s.frameAt a)).Ended n i [] [] := by
    intro hge
    refine ⟨?_, by simp [hfin], hp, hno⟩
    simp only [hfin, List.length_append, List.length_singleton]
    omega
  have hreader : s'.rs.readers[i]? =
      some (if s.rs.used a + 1 ≥ useMax then .freePtr a else .loop) :=
    List.getElem?_set_self (List.getElem?_eq_some_iff.mp hi).choose
  refine h.moves (a := a) ho ⟨hi, rfl, hn, rfl, fun _ => id, rfl, rfl, rfl, hfate, ?_,
    fun j hj => acts_append_of_ne hj, ?_⟩ ?_ ?_ (by simp) ?_ fun b hb => ?_
  case refine_1 =>
    intro x hx
    simp only [List.mem_append, List.mem_singleton] at hx ⊢
    rcases hx with ((hx | rfl) | hx) | hx <;> simp [*]
  case refine_2 =>
    intro j b hj he
    have ⟨ps, hs⟩ := h.ended hj
    exact absurd (he ▸ hs) (h.not_ended hi)
  case refine_3 =>
    split
    case isTrue hge => exact hended hge
    case isFalse    => trivial
  case refine_4 =>
    by_cases hge : s.rs.used a + 1 ≥ useMax
    case pos =>
      rw [if_pos hge] at hreader
      exact .freePtr i a (hended hge) hreader rfl
    case neg =>
      refine .shared ?_ hp hno
      change (s'.fate (s.frameAt a)).finished.length < n
      simp only [hfin, List.length_append, List.length_singleton]
      omega
  case refine_5 =>
    have hpend : s.pending i = [s.frameAt a] := by simp [State.pending, hi]
    have hpend' : s'.pending i = [] := by
      rw [State.pending, hreader]
      split
      case h_1 he =>
        split at he <;> cases he
      case h_2 => rfl
    rw [← h.pending i, hpend, hpend', List.append_nil]
    exact acts_append_self
  case refine_6 =>
    change Function.update s.rs.used a (s.rs.used a + 1) b = (s'.fate (s.frameAt b)).finished.length
    by_cases hba : b = a
    case pos =>
      rw [hba, hfin, Function.update_self, hu]
      simp
    case neg =>
      rw [Function.update_of_ne hba, (h.used b hb).right,
        hfate _ fun he => hba (h.inj b a hb hn he)]

-- The readers that are about to free a frame are its last.
theorem Ledger.only {ps ns : List Nat} (h : Ledger n s)
    (he : (s.fate (s.frameAt a)).Ended n i ps ns) (j : Nat) (b : Addr)
    (hj : s.rs.readers[j]? = some (Readers.Pc.freePtr b) ∨
      s.rs.readers[j]? = some (Readers.Pc.freeNode b))
    (hb : s.frameAt b = s.frameAt a) : j = i := by
  have ⟨qs, hs⟩ := h.ended hj
  exact (hb ▸ hs).eq he

theorem Ledger.freePtr_step (h : Ledger n s) (hi : s.rs.readers[i]? = some (.freePtr a))
    (ho : Order { s with
      rs := (s.rs.freeBlock (s.rs.ptr a)).setReader i (.freeNode a)
      freedPtr := s.freedPtr ++ [(i, s.frameAt a)] }) :
    Ledger n { s with
      rs := (s.rs.freeBlock (s.rs.ptr a)).setReader i (.freeNode a)
      freedPtr := s.freedPtr ++ [(i, s.frameAt a)] } := by
  have he : (s.fate (s.frameAt a)).Ended n i [] [] := h.stations i _ hi
  have ⟨hn, _⟩ := Readers.readersOf_freePtr h.order.base hi
  let s' : State β := { s with
    rs := (s.rs.freeBlock (s.rs.ptr a)).setReader i (.freeNode a)
    freedPtr := s.freedPtr ++ [(i, s.frameAt a)] }
  have hfate : ∀ frameId, frameId ≠ s.frameAt a → s'.fate frameId = s.fate frameId := by
    intro frameId hne
    simp only [State.fate, s', actors_append_of_ne hne]
  have hended : (s'.fate (s.frameAt a)).Ended n i [i] [] := by
    have hptr : (s.fate (s.frameAt a)).freedPtr ++ [i] = [i] := by rw [he.freedPtr, List.nil_append]
    exact ⟨he.all, he.last, actors_append_self.trans hptr, he.freedNode⟩
  have hreader : s'.rs.readers[i]? = some (.freeNode a) :=
    List.getElem?_set_self (List.getElem?_eq_some_iff.mp hi).choose
  refine h.moves (a := a) ho ⟨hi, rfl, hn, rfl, fun _ => id, rfl, rfl, rfl, hfate, ?_,
    fun j hj => rfl, h.only he⟩ hended (.freeNode i a hended hreader rfl) (by simp) ?_
    fun b hb => (h.used b hb).right
  case refine_1 =>
    intro x hx
    simp only [List.mem_append, List.mem_singleton] at hx ⊢
    rcases hx with (hx | (hx | rfl)) | hx <;> simp [*]
  case refine_2 =>
    have hpend : s'.pending i = s.pending i := by rw [State.pending, hreader, State.pending, hi]
    rw [hpend]
    exact h.pending i

theorem Ledger.freeNode_step (h : Ledger n s) (hi : s.rs.readers[i]? = some (.freeNode a))
    (ho : Order { s with
      rs := (s.rs.freeNode a).setReader i .loop
      freedNode := s.freedNode ++ [(i, s.frameAt a)] }) :
    Ledger n { s with
      rs := (s.rs.freeNode a).setReader i .loop
      freedNode := s.freedNode ++ [(i, s.frameAt a)] } := by
  have he : (s.fate (s.frameAt a)).Ended n i [i] [] := h.stations i _ hi
  have ⟨hn, _⟩ := Readers.readersOf_freeNode h.order.base hi
  let s' : State β := { s with
    rs := (s.rs.freeNode a).setReader i .loop
    freedNode := s.freedNode ++ [(i, s.frameAt a)] }
  have hnodes : ∀ b, s'.rs.nodes b = true → s.rs.nodes b = true := by
    intro b hb
    by_cases hba : b = a
    case pos => rw [hba, hn]
    case neg => simpa [s', Readers.State.setReader, Readers.State.freeNode, hba] using hb
  have hfate : ∀ frameId, frameId ≠ s.frameAt a → s'.fate frameId = s.fate frameId := by
    intro frameId hne
    simp only [State.fate, s', actors_append_of_ne hne]
  have hended : (s'.fate (s.frameAt a)).Ended n i [i] [i] := by
    have hnode : (s.fate (s.frameAt a)).freedNode ++ [i] = [i] := by
      rw [he.freedNode, List.nil_append]
    exact ⟨he.all, he.last, he.freedPtr, actors_append_self.trans hnode⟩
  have hreader : s'.rs.readers[i]? = some .loop :=
    List.getElem?_set_self (List.getElem?_eq_some_iff.mp hi).choose
  refine h.moves (a := a) ho ⟨hi, rfl, hn, rfl, hnodes, rfl, rfl, rfl, hfate, ?_,
    fun j hj => rfl, h.only he⟩ trivial (.freed i hended) (by simp) ?_
    fun b hb => (h.used b (hnodes b hb)).right
  case refine_1 =>
    intro x hx
    simp only [List.mem_append, List.mem_singleton] at hx ⊢
    rcases hx with (hx | hx) | (hx | rfl) <;> simp [*]
  case refine_2 =>
    have hpend : s'.pending i = s.pending i := by rw [State.pending, hreader, State.pending, hi]
    rw [hpend]
    exact h.pending i

theorem Ledger.finish_step (h : Ledger n s) (e : finish i s = some s') : Ledger n s' := by
  have ho := h.order.finish_step e
  simp only [finish, Option.bind_eq_bind, Option.bind_eq_some_iff] at e
  obtain ⟨pc, hi, rs, hrs, e⟩ := e
  simp only [Readers.exec, hi] at hrs
  cases pc <;> simp only [Option.pure_def, Option.some.injEq, reduceCtorEq] at hrs e <;>
    subst hrs e
  case hold     => exact h.hold_step hi ho
  case freePtr  => exact h.freePtr_step hi ho
  case freeNode => exact h.freeNode_step hi ho

-- The frames up to the one that a reader was handed last are those it was handed.
theorem Order.le_last_iff {fs : List (ShmFrame β)} {f : ShmFrame β} {j : Nat} (h : Order s)
    (hf : fs ∈ s.received) (hj : s.accepted[j]? = some f) :
    f.frameId ≤ lastFrameId fs ↔ j < fs.length := by
  cases hg : fs.getLast?
  case none =>
    have := h.positive f (List.mem_of_getElem? hj)
    cases List.getLast?_eq_none_iff.mp hg
    simp only [lastFrameId, List.getLast?_nil, Option.map_none, Option.getD_none, List.length_nil]
    omega
  case some g =>
    have hk := hg
    rw [List.getLast?_eq_getElem?] at hk
    have hl := (List.getElem?_eq_some_iff.mp hk).choose
    have hk' : s.accepted[fs.length - 1]? = some g :=
      hk ▸ (List.prefix_iff_getElem?.mp (h.received fs hf) _ hl).trans
        (List.getElem?_eq_getElem hl).symm
    have hlast : lastFrameId fs = g.frameId := by simp [lastFrameId, hg]
    rw [hlast]
    constructor
    case mp =>
      intro hle
      have := h.le_of_frameId_le hj hk' hle
      omega
    case mpr =>
      intro hlt
      by_contra hle
      have := h.le_of_frameId_le hk' hj (Int.le_of_lt (Int.not_le.mp hle))
      obtain rfl : j = fs.length - 1 := by omega
      rw [hj] at hk'
      cases hk'
      exact hle (Int.le_refl _)

-- So the frame that it takes next is the one that it is at.
theorem Order.taken_next {fs : List (ShmFrame β)} {us vs : List (Addr × NodeData (ShmFrame β))}
    {d : NodeData (ShmFrame β)} (h : Order s) (hi : s.received[i]? = some fs)
    (hq : s.rs.queue = us ++ (a, d) :: vs)
    (hle : ∀ x ∈ us, x.2.name.frameId ≤ lastFrameId fs) (hlt : lastFrameId fs < d.name.frameId) :
    s.dropped + us.length = fs.length := by
  have hf := List.mem_of_getElem? hi
  have hd := h.le_last_iff hf (h.getElem?_queue (k := us.length) (x := (a, d)) (by simp [hq]))
  have hle' := h.dropped _ (List.mem_of_getElem? (pos_getElem? hi))
  refine Nat.le_antisymm ?_ (by simp only at hd; omega)
  by_contra hgt
  have hm : fs.length - s.dropped < us.length := by omega
  have hu := h.le_last_iff hf (h.getElem?_queue (k := fs.length - s.dropped)
    (x := us[fs.length - s.dropped]) (by
      rw [hq, List.getElem?_append_left hm, List.getElem?_eq_getElem hm]))
  have := hu.mp (hle _ (List.getElem_mem hm))
  omega

theorem Step.order_of_last {l : Label β} (h : Order s) (e : Step lastFrameId s l s') :
    Order s' :=
  Step.order h (fun _ _ _ _ _ _ _ hi hq hle hlt => h.taken_next hi hq hle hlt) e

-- What is queued after a reader has taken a frame was queued before.
theorem mem_queue_taken {rs : Readers.State β} {us vs : List (Addr × NodeData (ShmFrame β))}
    {d : NodeData (ShmFrame β)} (hq : s.rs.queue = us ++ (a, d) :: vs)
    (hs : rs.queue = if d.val + 1 ≥ s.rs.useMax then us ++ vs
      else us ++ (a, { d with val := d.val + 1 }) :: vs) :
    ∀ x ∈ rs.queue, ∃ y ∈ s.rs.queue, y.1 = x.1 ∧ y.2.name = x.2.name := by
  intro x hx
  have hkeep : x ∈ us ∨ x ∈ vs → x ∈ s.rs.queue := by
    rw [hq, List.mem_append, List.mem_cons]
    exact fun hx => hx.imp_right .inr
  rw [hs] at hx
  split at hx <;> simp only [List.mem_append, List.mem_cons] at hx
  case isTrue => exact ⟨x, hkeep hx, rfl, rfl⟩
  case isFalse =>
    rcases hx with hx | rfl | hx
    · exact ⟨x, hkeep (.inl hx), rfl, rfl⟩
    · exact ⟨(a, d), by simp [hq], rfl, rfl⟩
    · exact ⟨x, hkeep (.inr hx), rfl, rfl⟩

theorem Ledger.take_step (h : Ledger n s) (ho : Order s') (e : take lastFrameId i s = some s') :
    Ledger n s' := by
  obtain ⟨fs, hi, h' | ⟨us, a, d, vs, rs, hq, hle, hlt, hrs, hset, hm, hs, rfl⟩⟩ := take_cases e
  case inl => exact h'.right ▸ h
  case inr =>
    have hloop : s.rs.readers[i]? = some .loop := by
      simp only [Readers.exec, Option.ite_none_right_eq_some] at hrs
      exact hrs.left
    have hr : rs.readers = s.rs.readers.set i (.hold a s.rs.useMax) := by
      rw [hset]
      rfl
    have hsame : rs.nodes = s.rs.nodes ∧ rs.used = s.rs.used := by
      rw [hset]
      exact ⟨rfl, rfl⟩
    have hother : ∀ j, j ≠ i → rs.readers[j]? = s.rs.readers[j]? := by
      intro j hj
      rw [hr, List.getElem?_set_ne hj.symm]
    have hself : rs.readers[i]? = some (.hold a s.rs.useMax) := by
      rw [hr, List.getElem?_set_self (List.getElem?_eq_some_iff.mp hloop).choose]
    have ha : s.frameAt a = d.name.frameId := h.queue (a, d) (by simp [hq])
    constructor
    case order  => exact ho
    case pos    => exact h.pos
    case length => exact List.length_set.trans h.length
    case stations =>
      intro j pc hj
      have hj : rs.readers[j]? = some pc := hj
      by_cases hji : j = i
      case pos =>
        rw [hji, hself] at hj
        cases hj
        exact h.order.useMax.trans (by rw [h.length])
      case neg => exact h.stations j pc (hother j hji ▸ hj)
    case freed =>
      intro f hf
      refine (h.freed f hf).congr rfl fun j b _ hj => ⟨hother j ?_, rfl⟩
      rintro rfl
      simp [hloop] at hj
    case pending =>
      intro j
      have hp := h.pending j
      by_cases hji : j = i
      case pos =>
        subst hji
        have hl := (List.getElem?_eq_some_iff.mp hi).choose
        simp only [State.pending, hloop, State.handed, hi, Option.getD_some,
          List.append_nil] at hp
        simp [State.pending, hself, State.handed, List.getElem?_set_self hl, hp, ha]
      case neg =>
        simpa [State.pending, hother j hji, State.handed, List.getElem?_set_ne (Ne.symm hji)]
          using hp
    case used =>
      intro b hb
      have hb : rs.nodes b = true := hb
      rw [hsame.left] at hb
      have hu : rs.used b = s.rs.used b := by rw [hsame.right]
      exact ⟨(h.used b hb).left, hu.trans (h.used b hb).right⟩
    case inj =>
      intro b c hb hc he
      have hb : rs.nodes b = true := hb
      have hc : rs.nodes c = true := hc
      rw [hsame.left] at hb hc
      exact h.inj b c hb hc he
    case queue =>
      intro x hx
      obtain ⟨y, hy, hyx, hyn⟩ := mem_queue_taken hq hs x hx
      rw [← hyx, ← hyn]
      exact h.queue y hy
    case known => exact h.known

-- The steps of the writer that leave the queue as it is.
theorem Ledger.congr (h : Ledger n s) (ho : Order s') (hs : s'.rs.shm = s.rs.shm)
    (hr : s'.rs.readers = s.rs.readers) (hn : s'.rs.nodes = s.rs.nodes)
    (hu : s'.rs.used = s.rs.used) (ha : s'.accepted = s.accepted) (hv : s'.received = s.received)
    (hf : s'.frameAt = s.frameAt) (hl : s'.finished = s.finished) (hp : s'.freedPtr = s.freedPtr)
    (hd : s'.freedNode = s.freedNode) : Ledger n s' := by
  have hfate : s'.fate = s.fate := by
    funext frameId
    simp only [State.fate, hl, hp, hd]
  constructor
  case order  => exact ho
  case pos    => exact h.pos
  case length => exact hv ▸ h.length
  case stations =>
    intro i pc hi
    rw [hr] at hi
    exact (h.stations i pc hi).congr fun a _ => by rw [hfate, hf]
  case freed =>
    intro f hfa
    rw [ha] at hfa
    exact (h.freed f hfa).congr (by rw [hfate]) fun i a _ _ => ⟨by rw [hr], by rw [hf]⟩
  case pending =>
    intro i
    have hp : s'.pending i = s.pending i := pending_congr (by rw [hr]) fun _ _ _ => by rw [hf]
    rw [hl, hp, State.handed, hv]
    exact h.pending i
  case used =>
    intro a hm
    rw [hn] at hm
    rw [ha, hf, hu, hfate]
    exact h.used a hm
  case inj =>
    rw [hn, hf]
    exact h.inj
  case queue =>
    rw [Readers.State.queue, hs, hf]
    exact h.queue
  case known =>
    rw [hl, hp, hd, ha]
    exact h.known

-- A reader deals with a node as long as it is allocated.
theorem Ledger.nodes {pc : Readers.Pc} (h : Ledger n s) (hi : s.rs.readers[i]? = some pc)
    (ha : pc.node = some a) : s.rs.nodes a = true :=
  h.order.base.nodes (.inr (Readers.State.mem_readersOf.mpr ⟨List.mem_of_getElem? hi, ha⟩))

-- No reader has done anything yet with a frame that is to come.
theorem Ledger.fate_new {frameId : Int} (h : Ledger n s)
    (hid : ∀ f ∈ s.accepted, f.frameId ≠ frameId) : s.fate frameId = ⟨[], [], []⟩ := by
  have hnot : ∀ x ∈ s.finished ++ s.freedPtr ++ s.freedNode, x.2 ≠ frameId := by
    intro x hx he
    have ⟨g, hg, hgx⟩ := h.known x hx
    exact hid g hg (hgx.trans he)
  simp only [List.mem_append] at hnot
  simp only [State.fate, Fate.mk.injEq, actors_eq_nil]
  exact ⟨fun x hx => hnot x (.inl (.inl hx)), fun x hx => hnot x (.inl (.inr hx)),
    fun x hx => hnot x (.inr hx)⟩

section

variable {f : ShmFrame β}

-- The frame is put into a new node at `a`.
structure Puts (s s' : State β) (a : Addr) (f : ShmFrame β) : Prop where
  free      : s.rs.nodes a = false
  frameId   : ∀ g ∈ s.accepted, g.frameId ≠ f.frameId
  readers   : s'.rs.readers = s.rs.readers
  nodes     : s'.rs.nodes = Function.update s.rs.nodes a true
  used      : s'.rs.used = Function.update s.rs.used a 0
  queue     : s'.rs.queue = s.rs.queue ++ [(a, ⟨f, 0, none⟩)]
  frameAt   : s'.frameAt = Function.update s.frameAt a f.frameId
  accepted  : s'.accepted = s.accepted ++ [f]
  received  : s'.received = s.received
  finished  : s'.finished = s.finished
  freedPtr  : s'.freedPtr = s.freedPtr
  freedNode : s'.freedNode = s.freedNode

namespace Puts

variable {b : Addr}

theorem fate (m : Puts s s' a f) : s'.fate = s.fate := by
  funext frameId
  simp only [State.fate, m.finished, m.freedPtr, m.freedNode]

theorem frameAt_self (m : Puts s s' a f) : s'.frameAt a = f.frameId := by
  rw [m.frameAt, Function.update_self]

theorem frameAt_of_nodes (m : Puts s s' a f) (hb : s.rs.nodes b = true) :
    s'.frameAt b = s.frameAt b := by
  rw [m.frameAt]
  refine Function.update_of_ne ?_ _ _
  rintro rfl
  exact absurd (hb.symm.trans m.free) (by decide)

theorem nodes_cases (m : Puts s s' a f) (hb : s'.rs.nodes b = true) :
    b = a ∨ b ≠ a ∧ s.rs.nodes b = true := by
  by_cases hba : b = a
  case pos => exact .inl hba
  case neg => exact .inr ⟨hba, by simpa [m.nodes, hba] using hb⟩

theorem mem_accepted {g : ShmFrame β} (m : Puts s s' a f) (hg : g ∈ s.accepted) :
    g ∈ s'.accepted :=
  m.accepted ▸ List.mem_append_left _ hg

theorem fate_new (h : Ledger n s) (m : Puts s s' a f) : s.fate f.frameId = ⟨[], [], []⟩ :=
  h.fate_new m.frameId

theorem frameAt_ne (h : Ledger n s) (m : Puts s s' a f) (hb : s.rs.nodes b = true) :
    s'.frameAt b ≠ s'.frameAt a := by
  have ⟨g, hg, hgb⟩ := (h.used b hb).left
  rw [m.frameAt_of_nodes hb, m.frameAt_self, ← hgb]
  exact m.frameId g hg

theorem stations {pc : Readers.Pc} (h : Ledger n s) (m : Puts s s' a f)
    (hi : s'.rs.readers[i]? = some pc) : Station n s' i pc := by
  rw [m.readers] at hi
  refine (h.stations i pc hi).congr fun b hb => ?_
  have hn : s.rs.nodes b = true := by
    cases hb
    case inl hb => exact h.nodes hi (hb ▸ rfl)
    case inr hb => exact h.nodes hi (hb ▸ rfl)
  rw [m.fate, m.frameAt_of_nodes hn]

theorem freed {g : ShmFrame β} (h : Ledger n s) (m : Puts s s' a f) (hg : g ∈ s'.accepted) :
    Freed n s' g.frameId := by
  rw [m.accepted] at hg
  cases List.mem_append.mp hg
  case inl hg =>
    refine (h.freed g hg).congr (by rw [m.fate]) fun i b _ hi => ⟨by rw [m.readers], ?_⟩
    cases hi
    case inl hi => exact m.frameAt_of_nodes (h.nodes hi rfl)
    case inr hi => exact m.frameAt_of_nodes (h.nodes hi rfl)
  case inr hg =>
    cases List.mem_singleton.mp hg
    have hfate : s'.fate f.frameId = ⟨[], [], []⟩ := m.fate ▸ m.fate_new h
    exact .shared (by rw [hfate]; exact h.pos) (by rw [hfate]) (by rw [hfate])

theorem used_eq (h : Ledger n s) (m : Puts s s' a f) (hb : s'.rs.nodes b = true) :
    (∃ g ∈ s'.accepted, g.frameId = s'.frameAt b) ∧
      s'.rs.used b = (s'.fate (s'.frameAt b)).finished.length := by
  rw [m.fate, m.used]
  rcases m.nodes_cases hb with rfl | ⟨hba, hb⟩
  · rw [m.frameAt_self, m.fate_new h, Function.update_self]
    exact ⟨⟨f, by simp [m.accepted], rfl⟩, rfl⟩
  · have ⟨⟨g, hg, hgb⟩, hub⟩ := h.used b hb
    rw [m.frameAt_of_nodes hb, Function.update_of_ne hba]
    exact ⟨⟨g, m.mem_accepted hg, hgb⟩, hub⟩

theorem inj {c : Addr} (h : Ledger n s) (m : Puts s s' a f) (hb : s'.rs.nodes b = true)
    (hc : s'.rs.nodes c = true) (he : s'.frameAt b = s'.frameAt c) : b = c := by
  rcases m.nodes_cases hb with rfl | ⟨-, hb⟩ <;> rcases m.nodes_cases hc with rfl | ⟨-, hc⟩
  · rfl
  · exact absurd he.symm (m.frameAt_ne h hc)
  · exact absurd he (m.frameAt_ne h hb)
  · rw [m.frameAt_of_nodes hb, m.frameAt_of_nodes hc] at he
    exact h.inj b c hb hc he

theorem frameAt_queue {x : Addr × NodeData (ShmFrame β)} (h : Ledger n s) (m : Puts s s' a f)
    (hx : x ∈ s'.rs.queue) : s'.frameAt x.1 = x.2.name.frameId := by
  rw [m.queue] at hx
  cases List.mem_append.mp hx
  case inl hx =>
    have hxm : x.1 ∈ addrs s.rs.queue ∨ Readers.Pc.loop ∈ s.rs.readersOf x.1 :=
      .inl (List.mem_map_of_mem hx)
    exact (m.frameAt_of_nodes (h.order.base.nodes hxm)).trans (h.queue x hx)
  case inr hx =>
    cases List.mem_singleton.mp hx
    exact m.frameAt_self

end Puts

theorem Ledger.puts (h : Ledger n s) (ho : Order s') (m : Puts s s' a f) : Ledger n s' := by
  constructor
  case order    => exact ho
  case pos      => exact h.pos
  case length   => exact m.received ▸ h.length
  case stations => exact fun _ _ => m.stations h
  case freed    => exact fun _ => m.freed h
  case pending =>
    intro i
    have hp : s'.pending i = s.pending i :=
      pending_congr (by rw [m.readers]) fun _ _ hi => m.frameAt_of_nodes (h.nodes hi rfl)
    rw [m.finished, hp, State.handed, m.received]
    exact h.pending i
  case used  => exact fun _ => m.used_eq h
  case inj   => exact fun _ _ => m.inj h
  case queue => exact fun _ => m.frameAt_queue h
  case known =>
    intro x hx
    rw [m.finished, m.freedPtr, m.freedNode] at hx
    have ⟨g, hg, hgx⟩ := h.known x hx
    exact ⟨g, m.mem_accepted hg, hgx⟩

theorem Ledger.put_step {p : Addr} {node : Ptr} (h : Ledger n s) (ho : Order s')
    (e : put p node s = some s') : Ledger n s' := by
  obtain ⟨w, rs, hw, -, h' | ⟨a, rfl, ha, hq, hset, rfl⟩⟩ := put_cases e
  case inl =>
    obtain ⟨rfl, rfl⟩ := h'
    exact h.congr ho rfl rfl rfl rfl rfl rfl rfl rfl rfl rfl
  case inr =>
    have hid : ∀ f ∈ s.accepted, f.frameId ≠ w.frameId := fun f hf =>
      Int.ne_of_lt ((h.order.put p w hw).right.right f hf)
    have hr : rs.readers = s.rs.readers := by
      rw [hset]
      rfl
    exact h.puts ho ⟨ha, hid, hr, by rw [hset], by rw [hset], congrArg (·.nodes) hq, rfl, rfl, rfl,
      rfl, rfl, rfl⟩

end

theorem Step.ledger {l : Label β} (h : Ledger n s) (e : Step lastFrameId s l s') :
    Ledger n s' := by
  have ho := e.order_of_last h.order
  cases l
  case take i   => exact h.take_step ho e
  case finish i => exact h.finish_step e
  case put      => exact h.put_step ho e
  case malloc p w =>
    simp only [Step, exec, malloc, Option.ite_none_right_eq_some, Option.bind_eq_bind,
      Option.bind_eq_some_iff] at e
    obtain ⟨-, rs, hrs, e⟩ := e
    cases e
    simp only [Readers.exec, Option.ite_none_left_eq_some] at hrs
    cases hrs.right
    exact h.congr ho rfl rfl rfl rfl rfl rfl rfl rfl rfl rfl
  case free p =>
    simp only [Step, exec, free, Option.bind_eq_bind, Option.bind_eq_some_iff] at e
    obtain ⟨rs, hrs, e⟩ := e
    cases e
    simp only [Readers.exec] at hrs
    split at hrs <;> cases hrs
    exact h.congr ho rfl rfl rfl rfl rfl rfl rfl rfl rfl rfl

theorem joined_ledger (type : CStr) (hn : 1 ≤ n) : Ledger n (joined type n : State β) := by
  constructor
  case order  => exact joined_order type n
  case pos    => exact hn
  case length => exact List.length_replicate
  case stations =>
    intro i pc hi
    cases List.eq_of_mem_replicate (List.mem_of_getElem? hi)
    trivial
  case freed => exact nofun
  case pending =>
    intro i
    have hr : ∀ fs ∈ (joined type n : State β).received[i]?, fs = [] := by
      intro fs hf
      exact List.eq_of_mem_replicate (List.mem_of_getElem? hf)
    have hp : (joined type n : State β).pending i = [] := by
      simp only [State.pending]
      split
      case h_1 hi => cases List.eq_of_mem_replicate (List.mem_of_getElem? hi)
      case h_2    => rfl
    rw [hp, State.handed]
    cases hi : (joined type n : State β).received[i]?
    case none    => rfl
    case some fs =>
      rw [hr fs hi]
      rfl
  case used  => exact nofun
  case inj   => exact nofun
  case queue => exact nofun
  case known => exact nofun

-- A reader finishes no frame twice.
theorem Ledger.nodup_acts (h : Ledger n s) (i : Nat) : (acts i s.finished).Nodup := by
  have hp : acts i s.finished <+: s.handed i := ⟨_, h.pending i⟩
  apply hp.sublist.nodup
  rw [State.handed]
  cases hi : s.received[i]?
  case none    => exact .nil
  case some fs =>
    have hf := h.order.received fs (List.mem_of_getElem? hi)
    exact (hf.map ShmFrame.frameId).sublist.nodup h.order.nodup_ids

section

variable {f : ShmFrame β}

theorem exists_reader {pc : Readers.Pc} {pcs : List Readers.Pc}
    (hr : (s.rs.readersOf a).Perm (pc :: pcs)) : ∃ i : Nat, s.rs.readers[i]? = some pc :=
  List.mem_iff_getElem?.mp
    (Readers.State.mem_readersOf.mp (hr.mem_iff.mpr List.mem_cons_self)).left

-- A node that is allocated has not been finished by all, or is still to be freed by the last.
theorem Ledger.freedNode_eq_nil (h : Ledger n s) (ha : s.rs.nodes a = true) :
    (s.fate (s.frameAt a)).freedNode = [] := by
  have ⟨⟨f, hf, hfa⟩, hu⟩ := h.used a ha
  have hfreed := hfa ▸ h.freed f hf
  cases hfreed
  case shared hn       => exact hn
  case freePtr j b he _ _  => exact he.freedNode
  case freeNode j b he _ _ => exact he.freedNode
  case freed j he =>
    have hall := he.all
    have hmax : s.rs.useMax = n := h.order.useMax.trans (by rw [h.length])
    have hpos := h.pos
    cases h.order.base.life a
    case free hn _ _ => exact absurd (ha.symm.trans hn) (by decide)
    case queued d k _ _ _ _ hd hlt _ => omega
    case taken u k _ _ _ hd hr =>
      have ⟨i, hi⟩ := exists_reader hr
      have hst : u = n := h.stations i _ hi
      omega
    case freePtr _ _ hr =>
      have ⟨i, hi⟩ := exists_reader hr
      have hst : (s.fate (s.frameAt a)).Ended n i [] [] := h.stations i _ hi
      exact hst.freedNode
    case freeNode _ _ hr =>
      have ⟨i, hi⟩ := exists_reader hr
      have hst : (s.fate (s.frameAt a)).Ended n i [i] [] := h.stations i _ hi
      exact hst.freedNode

-- A reader that has not finished a frame that it was handed holds it.
theorem Ledger.holds {fs : List (ShmFrame β)} (h : Ledger n s) (hi : s.received[i]? = some fs)
    (hf : f ∈ fs) (hn : i ∉ (s.fate f.frameId).finished) :
    ∃ a useMax, s.rs.readers[i]? = some (.hold a useMax) ∧ s.frameAt a = f.frameId := by
  have hp := h.pending i
  have hm : f.frameId ∈ s.handed i := by
    simp only [State.handed, hi, Option.getD_some]
    exact List.mem_map_of_mem hf
  have hacts : f.frameId ∉ acts i s.finished := by
    intro ha
    refine hn ?_
    simp only [acts, List.mem_map, List.mem_filter] at ha
    obtain ⟨x, ⟨hx, hxi⟩, hxf⟩ := ha
    simp only [State.fate, actors, List.mem_map, List.mem_filter]
    exact ⟨x, ⟨hx, by simpa using hxf⟩, by simpa using hxi⟩
  have hpend : f.frameId ∈ s.pending i :=
    (List.mem_append.mp (hp ▸ hm)).resolve_left hacts
  simp only [State.pending] at hpend
  split at hpend
  case h_1 a useMax hr => exact ⟨a, useMax, hr, (List.mem_singleton.mp hpend).symm⟩
  case h_2             => cases hpend

theorem Ledger.exists_node (h : Ledger n s) (hf : f ∈ s.accepted)
    (hn : (s.fate f.frameId).freedNode = []) :
    ∃ a, s.rs.nodes a = true ∧ s.frameAt a = f.frameId := by
  cases h.freed f hf
  case freePtr j a _ hj ha  => exact ⟨a, h.nodes hj rfl, ha⟩
  case freeNode j a _ hj ha => exact ⟨a, h.nodes hj rfl, ha⟩
  case freed j he           => exact absurd (he.freedNode.symm.trans hn) (by simp)
  case shared hlt _ _ =>
    by_cases hq : f ∈ s.queued
    case pos =>
      have ⟨x, hx, hxf⟩ := List.mem_map.mp hq
      refine ⟨x.1, ?_, by rw [h.queue x hx, hxf]⟩
      have hm : x.1 ∈ addrs s.rs.queue ∨ Readers.Pc.loop ∈ s.rs.readersOf x.1 :=
        .inl (List.mem_map_of_mem hx)
      exact h.order.base.nodes hm
    case neg =>
      -- All readers were handed it, and one of them has not finished it.
      have ⟨i, hi, hni⟩ : ∃ i < n, i ∉ (s.fate f.frameId).finished := by
        by_contra hall
        simp only [not_exists, not_and, not_not] at hall
        have hsub : List.range n ⊆ (s.fate f.frameId).finished := fun i hi =>
          hall i (List.mem_range.mp hi)
        have := (List.subperm_of_subset List.nodup_range hsub).length_le
        rw [List.length_range] at this
        omega
      have hl : i < s.received.length := h.length ▸ hi
      have hm := h.order.handed hf hq _ (List.getElem_mem hl)
      have ⟨a, u, hr, ha⟩ := h.holds (List.getElem?_eq_getElem hl) hm hni
      exact ⟨a, h.nodes hr rfl, ha⟩

-- A frame whose payload is not freed is queued, or with a reader that has not freed it.
theorem Ledger.busy (h : Ledger n s) (hf : f ∈ s.accepted)
    (hp : (s.fate f.frameId).freedPtr = []) :
    ∃ a, s.rs.nodes a = true ∧ s.frameAt a = f.frameId ∧ s.rs.Busy a := by
  have hn : (s.fate f.frameId).freedNode = [] := by
    cases h.freed f hf
    case shared hn         => exact hn
    case freePtr he _ _    => exact he.freedNode
    case freeNode he _ _   => exact he.freedNode
    case freed he          => exact absurd (he.freedPtr.symm.trans hp) (by simp)
  have ⟨a, ha, he⟩ := h.exists_node hf hn
  refine ⟨a, ha, he, ?_⟩
  cases h.order.base.life a
  case free hno _ _         => exact absurd (ha.symm.trans hno) (by decide)
  case queued d _ _ hd _ _ _ _ _ => exact .inl (List.mem_map_of_mem hd)
  case taken u k _ _ _ _ hr =>
    have ⟨i, hi⟩ := exists_reader hr
    exact .inr ⟨_, List.mem_of_getElem? hi, rfl⟩
  case freePtr _ _ hr =>
    have ⟨i, hi⟩ := exists_reader hr
    exact .inr ⟨_, List.mem_of_getElem? hi, rfl⟩
  case freeNode _ _ hr =>
    have ⟨i, hi⟩ := exists_reader hr
    have hst : (s.fate (s.frameAt a)).Ended n i [i] [] := h.stations i _ hi
    exact absurd ((he ▸ hst.freedPtr).symm.trans hp) (by simp)

theorem Ledger.blocks {p : Addr} (h : Ledger n s) (hk : Stock s) :
    s.rs.blocks p = true ↔ (s.rs.writers p).isSome ∨
      ∃ f ∈ s.accepted, f.ptr = p ∧ (s.fate f.frameId).freedPtr = [] := by
  refine ⟨hk.blocks p, ?_⟩
  rintro (hw | ⟨f, hf, rfl, hp⟩)
  · exact h.order.base.owns.valid (.writer p) p ⟨rfl, hw⟩
  · have ⟨a, ha, he, hb⟩ := h.busy hf hp
    exact h.order.base.owns.valid (.node a) _ ⟨hk.ptr a ha f hf he.symm, hb⟩

end

theorem Ledger.handedOnce (h : Ledger n s) (hk : Stock s) : HandedOnce n s where
  ids       := h.order.nodup_ids
  received  := fun _ hf => h.order.ahead hf
  queued f hf := by
    have hne : s.received ≠ [] := by
      apply List.ne_nil_of_length_pos
      rw [h.length]
      exact h.pos
    exact ⟨h.order.handed hf, h.order.not_queued hne⟩
  finished i fs hi := by
    refine ⟨s.pending i, ?_⟩
    rw [h.pending, State.handed, hi, Option.getD_some]
  once _    := nodup_actors (nodup_of_acts h.nodup_acts)
  freedOnce := h.order.base.freedOnce
  freed     := h.freed
  nodes a ha :=
    have ⟨⟨f, hf, hfa⟩, _⟩ := h.used a ha
    ⟨f, hf, hfa.symm⟩
  node f hf := ⟨h.exists_node hf, fun ⟨a, ha, he⟩ => he ▸ h.freedNode_eq_nil ha⟩
  blocks _  := h.blocks hk

-- Of the frames and what their nodes refer to, a step leaves all but the readers' nodes.
theorem Stock.congr (h : Stock s) (hn : ∀ a, s'.rs.nodes a = true → s.rs.nodes a = true)
    (hp : s'.rs.ptr = s.rs.ptr) (hf : s'.frameAt = s.frameAt) (ha : s'.accepted = s.accepted)
    (hb : ∀ p, s'.rs.blocks p = true → (s'.rs.writers p).isSome ∨
      ∃ f ∈ s.accepted, f.ptr = p ∧ (s'.fate f.frameId).freedPtr = []) : Stock s' where
  ptr a hm f hfa he := by
    rw [hp]
    exact h.ptr a (hn a hm) f (ha ▸ hfa) (by rw [he, hf])
  blocks p hm := by
    rw [ha]
    exact hb p hm

theorem Stock.take_step {cursor : List (ShmFrame β) → Int} (h : Stock s)
    (e : take cursor i s = some s') : Stock s' := by
  obtain ⟨fs, -, h' | ⟨us, a, d, vs, rs, -, -, -, -, hset, -, -, rfl⟩⟩ := take_cases e
  case inl => exact h'.right ▸ h
  case inr =>
    rw [hset]
    exact h.congr (fun _ => id) rfl rfl rfl h.blocks

theorem Stock.finish_step (hl : Ledger n s) (h : Stock s) (e : finish i s = some s') :
    Stock s' := by
  simp only [finish, Option.bind_eq_bind, Option.bind_eq_some_iff] at e
  obtain ⟨pc, hi, rs, hrs, e⟩ := e
  simp only [Readers.exec, hi] at hrs
  cases pc <;> simp only [Option.pure_def, Option.some.injEq, reduceCtorEq] at hrs e <;>
    subst hrs e
  case hold => exact h.congr (fun _ => id) rfl rfl rfl h.blocks
  case freePtr a =>
    obtain ⟨hn, _⟩ := Readers.readersOf_freePtr hl.order.base hi
    refine h.congr (fun _ => id) rfl rfl rfl fun q hq => ?_
    have hqa : q ≠ s.rs.ptr a := by
      rintro rfl
      simp [Readers.State.setReader, Readers.State.freeBlock] at hq
    have hq : s.rs.blocks q = true := by
      simpa [Readers.State.setReader, Readers.State.freeBlock, hqa] using hq
    rcases h.blocks q hq with hw | ⟨f, hf, hfq, hp⟩
    case inl => exact .inl hw
    case inr =>
      -- It is another frame than the one that is freed.
      have hne : f.frameId ≠ s.frameAt a := fun he => hqa (hfq ▸ (h.ptr a hn f hf he).symm)
      refine .inr ⟨f, hf, hfq, ?_⟩
      simpa only [State.fate, actors_append_of_ne hne] using hp
  case freeNode a =>
    refine h.congr (fun b hb => ?_) rfl rfl rfl h.blocks
    by_cases hba : b = a
    case pos => simp [hba, Readers.State.setReader, Readers.State.freeNode] at hb
    case neg => simpa [Readers.State.setReader, Readers.State.freeNode, hba] using hb

-- The steps of a writer at the block `p`, other than that it puts its frame.
theorem Stock.writer_step {p : Addr} (h : Stock s) (hn : s'.rs.nodes = s.rs.nodes)
    (hp : s'.rs.ptr = s.rs.ptr) (hf : s'.frameAt = s.frameAt) (ha : s'.accepted = s.accepted)
    (hd : s'.freedPtr = s.freedPtr)
    (hb : ∀ q, q ≠ p → s'.rs.blocks q = s.rs.blocks q ∧ s'.rs.writers q = s.rs.writers q)
    (hw : s'.rs.blocks p = true → (s'.rs.writers p).isSome) : Stock s' := by
  refine h.congr (fun a => hn ▸ id) hp hf ha fun q hq => ?_
  by_cases hqp : q = p
  case pos => exact .inl (hqp ▸ hw (hqp ▸ hq))
  case neg =>
    have ⟨hbq, hwq⟩ := hb q hqp
    simp only [State.fate, hd, hwq]
    exact h.blocks q (hbq ▸ hq)

theorem Stock.put_step {p : Addr} {node : Ptr} (hl : Ledger n s) (h : Stock s)
    (e : put p node s = some s') : Stock s' := by
  obtain ⟨w, rs, hw, -, ⟨rfl, rfl⟩ | ⟨a, rfl, -, -, hset, rfl⟩⟩ := put_cases e
  case inl =>
    refine h.writer_step (p := p) rfl rfl rfl rfl rfl (fun q hq => ?_) fun _ => ?_
    · simp [Readers.State.setWriter, hq]
    · simp [Readers.State.setWriter]
  case inr =>
    have hid : ∀ g ∈ s.accepted, g.frameId ≠ w.frameId := fun g hg =>
      Int.ne_of_lt ((hl.order.put p w hw).right.right g hg)
    have hnew : s.fate w.frameId = ⟨[], [], []⟩ := hl.fate_new hid
    rw [hset]
    constructor
    case ptr =>
      intro b hb g hg he
      simp only [List.mem_append, List.mem_singleton] at hg
      by_cases hba : b = a
      case pos =>
        subst hba
        simp only [Function.update_self] at he ⊢
        rcases hg with hg | rfl
        · exact absurd he (hid g hg)
        · rfl
      case neg =>
        simp only [Function.update_of_ne hba] at hb he ⊢
        rcases hg with hg | rfl
        · exact h.ptr b hb g hg he
        · obtain ⟨⟨g', hg', hgb⟩, _⟩ := hl.used b hb
          exact absurd (hgb.trans he.symm) (hid g' hg')
    case blocks =>
      intro q hq
      rcases h.blocks q hq with hwq | ⟨g, hg, hgq, hp⟩
      case inr => exact .inr ⟨g, List.mem_append_left _ hg, hgq, hp⟩
      case inl =>
        by_cases hqp : q = p
        case pos =>
          refine .inr ⟨_, List.mem_append_right _ List.mem_cons_self, hqp.symm, ?_⟩
          exact congrArg Fate.freedPtr hnew
        case neg => exact .inl (by simpa [Readers.State.setWriter, hqp] using hwq)

theorem Step.stock {l : Label β} (h : Ledger n s) (hk : Stock s) (e : Step lastFrameId s l s') :
    Stock s' := by
  cases l
  case take i   => exact hk.take_step e
  case finish i => exact hk.finish_step h e
  case malloc p w =>
    simp only [Step, exec, malloc, Option.ite_none_right_eq_some, Option.bind_eq_bind,
      Option.bind_eq_some_iff] at e
    obtain ⟨-, rs, hrs, e⟩ := e
    cases e
    simp only [Readers.exec, Option.ite_none_left_eq_some] at hrs
    cases hrs.right
    refine hk.writer_step (p := p) rfl rfl rfl rfl rfl (fun q hq => ?_) fun _ => ?_
    · simp [Readers.State.setWriter, hq]
    · simp [Readers.State.setWriter]
  case free p =>
    simp only [Step, exec, free, Option.bind_eq_bind, Option.bind_eq_some_iff] at e
    obtain ⟨rs, hrs, e⟩ := e
    cases e
    simp only [Readers.exec] at hrs
    split at hrs <;> cases hrs
    refine hk.writer_step (p := p) rfl rfl rfl rfl rfl (fun q hq => ?_) fun hb => ?_
    · simp [Readers.State.setWriter, Readers.State.freeBlock, hq]
    · simp [Readers.State.setWriter, Readers.State.freeBlock] at hb
  case put p node => exact hk.put_step h e

theorem handed_once {type : CStr} (hn : 1 ≤ n) {tr : List (State β × Label β)}
    (r : Run (Step lastFrameId) (joined type n) tr s) : HandedOnce n s := by
  have h : Ledger n s ∧ Stock s :=
    r.invariant (I := fun s => Ledger n s ∧ Stock s)
      (fun _ _ _ h e => ⟨Step.ledger h.left e, Step.stock h.left h.right e⟩)
      ⟨joined_ledger type hn, nofun, nofun⟩
  exact h.left.handedOnce h.right

section

def packet (frameId : Int) : Readers.Write Unit :=
  ⟨(), 4, frameId, 101, 25⟩

-- The second reader is behind the first, and the last to finish the first frame.
def behind : List (Label Unit) := [
  .malloc 64 (packet 1), .put 64 (some 128), .take 0, .finish 0, .malloc 72 (packet 2),
  .put 72 (some 136), .take 0, .take 1, .finish 1, .finish 1]

theorem handed_once_witness :
    ∃ s, Run (Step lastFrameId) (joined "video" 2)
        (Run.partialTrace (exec lastFrameId) behind (joined "video" 2)) s ∧
      HandedOnce 2 s ∧ s.fate 1 = ⟨[0, 1], [1], []⟩ := by
  have r := Run.of_partialTrace (exec lastFrameId) behind (joined "video" 2) rfl
  exact ⟨_, r, handed_once (by decide) r, rfl⟩

end

end Delivery
