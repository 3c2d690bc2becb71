import Aiotc.Library.Cursors
import Aiotc.Shm.Lifetime

-- One writer and the readers that have joined a buffer: which frames each of them is handed.

open Cursors Heap

namespace Delivery

variable {β : Type}

-- `frameId` is that of the last call of `copyToShm`, `pushing` the block of one that is not over.
-- `accepted` are the frames that were put into the queue, `received` those that each reader was
-- handed, and `frameAt` tells the frame that was put into a node last. The others list in their
-- order which reader has finished which frame, and has freed its payload and its node.
structure State (β : Type) where
  rs : Readers.State β
  frameId : Int := 0
  pushing : Option Addr := none
  accepted : List (ShmFrame β) := []
  received : List (List (ShmFrame β))
  frameAt : Addr → Int := fun _ => 0
  finished : List (Nat × Int) := []
  freedPtr : List (Nat × Int) := []
  freedNode : List (Nat × Int) := []

-- After `n` readers have joined a buffer.
def joined (type : CStr) (n : Nat) : State β where
  rs := { shm := { type := type, queue := { useMax := n } }, readers := .replicate n .loop }
  received := .replicate n []

-- The `frameId` that a reader calls `copyFromShmWithUser` with: that of the last frame it was
-- handed, or what `read_video_packet` has in its variable.
def lastFrameId (received : List (ShmFrame β)) : Int :=
  (received.getLast?.map ShmFrame.frameId).getD 0

def readVideoPacket (_ : List (ShmFrame β)) : Int :=
  0

def malloc (p : Addr) (w : Readers.Write β) (s : State β) : Option (State β) :=
  if s.pushing = none ∧ s.frameId < w.frameId then do
    let rs ← Readers.exec (.malloc p w) s.rs
    return { s with rs := rs, frameId := w.frameId, pushing := some p }
  else
    none

def put (p : Addr) (node : Ptr) (s : State β) : Option (State β) := do
  let rs ← Readers.exec (.put p node) s.rs
  match node, s.rs.writers p, rs.writers p with
  | some a, some (.put w), none => return { s with
      rs := rs
      pushing := none
      accepted := s.accepted ++ [⟨w.type, p, w.buf, w.size, w.frameId⟩]
      frameAt := Function.update s.frameAt a w.frameId }
  | _, _, _ => return { s with rs := rs }

def free (p : Addr) (s : State β) : Option (State β) := do
  let rs ← Readers.exec (.free p) s.rs
  return { s with rs := rs, pushing := none }

def take (cursor : List (ShmFrame β) → Int) (i : Nat) (s : State β) : Option (State β) := do
  let received ← s.received[i]?
  let rs ← Readers.exec (.take i (cursor received)) s.rs
  let taken := (Shm.copyFromShmWithUser (cursor received) s.rs.shm).1
  let received := received ++ (taken.map Taken.frame).toList
  return { s with rs := rs, received := s.received.set i received }

def finish (i : Nat) (s : State β) : Option (State β) := do
  let pc ← s.rs.readers[i]?
  let rs ← Readers.exec (.finish i) s.rs
  match pc with
  | .hold a _   => return { s with rs := rs, finished := s.finished ++ [(i, s.frameAt a)] }
  | .freePtr a  => return { s with rs := rs, freedPtr := s.freedPtr ++ [(i, s.frameAt a)] }
  | .freeNode a => return { s with rs := rs, freedNode := s.freedNode ++ [(i, s.frameAt a)] }
  | _           => none

inductive Label (β : Type)
  | malloc (p : Addr) (w : Readers.Write β)
  | put (p : Addr) (node : Ptr)
  | free (p : Addr)
  | take (i : Nat)
  | finish (i : Nat)

def exec (cursor : List (ShmFrame β) → Int) : Label β → State β → Option (State β)
  | .malloc p w, s => malloc p w s
  | .put p node, s => put p node s
  | .free p, s     => free p s
  | .take i, s     => take cursor i s
  | .finish i, s   => finish i s

def Step (cursor : List (ShmFrame β) → Int) (s : State β) (l : Label β) (s' : State β) : Prop :=
  exec cursor l s = some s'

namespace State

-- The frames that are queued.
def queued (s : State β) : List (ShmFrame β) :=
  s.rs.queue.map (·.2.name)

-- How many are not queued any more.
def dropped (s : State β) : Nat :=
  s.accepted.length - s.rs.queue.length

def pos (s : State β) : List Nat :=
  s.received.map List.length

end State

-- Every reader is handed the frames in the order in which they were put, and the next ones are
-- queued as long as there are readers to come.
structure Order (s : State β) : Prop where
  base     : Readers.Inv s.rs
  useMax   : s.rs.useMax = s.received.length
  sorted   : (s.accepted.map ShmFrame.frameId).Pairwise (· < ·)
  positive : ∀ f ∈ s.accepted, 0 < f.frameId
  received : ∀ fs ∈ s.received, fs <+: s.accepted
  queued   : s.queued = s.accepted.drop s.dropped
  dropped  : ∀ p ∈ s.pos, s.dropped ≤ p
  val      : ∀ (k : Nat) (x : Addr × NodeData (ShmFrame β)), s.rs.queue[k]? = some x →
    x.2.val = passed (s.dropped + k) s.pos
  clock    : 0 ≤ s.frameId ∧ ∀ f ∈ s.accepted, f.frameId ≤ s.frameId
  pushing  : ∀ p w, s.rs.writers p = some w → s.pushing = some p
  put      : ∀ p w, s.rs.writers p = some (.put w) →
    0 < w.frameId ∧ w.frameId = s.frameId ∧ ∀ f ∈ s.accepted, f.frameId < w.frameId

variable {s s' : State β} {i : Nat}

theorem Order.length_le (h : Order s) : s.rs.queue.length ≤ s.accepted.length := by
  have hl := congrArg List.length h.queued
  simp only [State.queued, State.dropped, List.length_map, List.length_drop] at hl
  omega

theorem Order.dropped_add (h : Order s) : s.dropped + s.rs.queue.length = s.accepted.length := by
  have := h.length_le
  simp only [State.dropped]
  omega

-- The frame at a place of the queue.
theorem Order.getElem?_queue (h : Order s) {k : Nat} {x : Addr × NodeData (ShmFrame β)}
    (hk : s.rs.queue[k]? = some x) : s.accepted[s.dropped + k]? = some x.2.name := by
  have hq := congrArg (·[k]?) h.queued
  simpa [State.queued, hk] using hq.symm

-- A queued frame has a reader to come.
theorem Order.val_lt (h : Order s) (hn : s.received ≠ []) {k : Nat}
    {x : Addr × NodeData (ShmFrame β)} (hk : s.rs.queue[k]? = some x) :
    passed (s.dropped + k) s.pos < s.received.length := by
  obtain ⟨-, -, -, _, -, hv, -⟩ := h.base.queued (a := x.1) (d := x.2) (List.mem_of_getElem? hk)
  have hx := h.val k x hk
  have hu := h.useMax
  have hl := List.length_pos_iff.mpr hn
  omega

theorem pos_set {fs : List (ShmFrame β)} {f : ShmFrame β} :
    (s.received.set i (fs ++ [f])).map List.length = s.pos.set i (fs.length + 1) := by
  simp [State.pos, List.map_set]

theorem pos_getElem? {fs : List (ShmFrame β)} (hi : s.received[i]? = some fs) :
    s.pos[i]? = some fs.length := by
  simp [State.pos, hi]

-- Where a reader takes the frame that it is at.
section

variable {rs : Readers.State β} {us vs : List (Addr × NodeData (ShmFrame β))} {a : Addr}
  {d : NodeData (ShmFrame β)} {fs : List (ShmFrame β)}

theorem Order.val_taken (h : Order s) (hq : s.rs.queue = us ++ (a, d) :: vs)
    (hp : s.dropped + us.length = fs.length) : d.val = passed fs.length s.pos := by
  have hv := h.val us.length (a, d) (by simp [hq])
  rwa [hp] at hv

theorem Order.accepted_taken (h : Order s) (hq : s.rs.queue = us ++ (a, d) :: vs)
    (hp : s.dropped + us.length = fs.length) : s.accepted[fs.length]? = some d.name := by
  have hv := h.getElem?_queue (k := us.length) (x := (a, d)) (by simp [hq])
  rwa [hp] at hv

theorem Order.received_taken (h : Order s) (hi : s.received[i]? = some fs)
    (hq : s.rs.queue = us ++ (a, d) :: vs) (hp : s.dropped + us.length = fs.length) :
    ∀ gs ∈ s.received.set i (fs ++ [d.name]), gs <+: s.accepted := by
  intro gs hg
  cases List.mem_or_eq_of_mem_set hg
  case inl hg => exact h.received gs hg
  case inr hg =>
    have hf := List.prefix_iff_eq_take.mp (h.received fs (List.mem_of_getElem? hi))
    have ⟨hl, ha⟩ := List.getElem?_eq_some_iff.mp (h.accepted_taken hq hp)
    rw [hg, hf, ← ha]
    have := List.take_prefix (fs.length + 1) s.accepted
    rwa [List.take_succ_eq_append_getElem hl] at this

-- With the last of its takers the frame leaves the queue, which it is the head of.
theorem Order.eq_nil_of_last (h : Order s) (hi : s.received[i]? = some fs)
    (hq : s.rs.queue = us ++ (a, d) :: vs) (hp : s.dropped + us.length = fs.length)
    (hl : s.received.length ≤ passed fs.length (s.pos.set i (fs.length + 1))) : us = [] := by
  by_contra hn
  have hlen := List.length_pos_iff.mpr hn
  have hne : s.received ≠ [] := by
    intro h₀
    simp [h₀] at hi
  have hx : s.rs.queue[0]? = some (us.head hn) := by
    rw [hq, ← List.head?_eq_getElem?, List.head?_append_of_ne_nil _ hn, List.head?_eq_some_head hn]
  have hlt : passed s.dropped s.pos < s.received.length := h.val_lt hne hx
  have hle : passed fs.length (s.pos.set i (fs.length + 1)) ≤
      passed s.dropped (s.pos.set i (fs.length + 1)) := passed_anti (by omega)
  rw [passed_set (pos_getElem? hi) (k := s.dropped), if_neg (by omega)] at hle
  omega

-- The last reader takes the frame out of the queue.
theorem Order.take_last (h : Order s) (hi : s.received[i]? = some fs)
    (hq : s.rs.queue = us ++ (a, d) :: vs) (hp : s.dropped + us.length = fs.length)
    (hb : Readers.Inv rs) (hm : rs.useMax = s.rs.useMax) (hw : rs.writers = s.rs.writers)
    (hl : d.val + 1 ≥ s.rs.useMax) (hs : rs.queue = us ++ vs) :
    Order { s with rs := rs, received := s.received.set i (fs ++ [d.name]) } := by
  have hval := h.val_taken hq hp
  have hset := passed_set (k := fs.length) (pos_getElem? hi)
  rw [if_pos rfl] at hset
  have hrec := h.received_taken hi hq hp
  let s' := { s with rs := rs, received := s.received.set i (fs ++ [d.name]) }
  have hpos : s'.pos = s.pos.set i (fs.length + 1) := pos_set
  have hle : s.received.length ≤ passed fs.length (s.pos.set i (fs.length + 1)) := by
    have := h.useMax
    omega
  cases h.eq_nil_of_last hi hq hp hle
  simp only [List.length_nil, Nat.add_zero, List.nil_append] at hp hq hs
  have hdrop : s'.dropped = s.dropped + 1 := by
    have := h.dropped_add
    simp only [State.dropped, s', hs, hq, List.length_cons] at this ⊢
    omega
  constructor
  case base     => exact hb
  case useMax   => simpa [hm] using h.useMax
  case sorted   => exact h.sorted
  case positive => exact h.positive
  case received => exact hrec
  case queued =>
    have := congrArg (List.drop 1) h.queued
    change s'.queued = s.accepted.drop s'.dropped
    rw [hdrop]
    simpa [State.queued, s', hs, hq] using this
  case dropped =>
    intro p hmem
    change s'.dropped ≤ p
    have hlen : (s.pos.set i (fs.length + 1)).length = s.received.length := by simp [State.pos]
    have hall := passed_eq_length.mp (Nat.le_antisymm passed_le_length (hlen ▸ hle))
    have := hall p (hpos ▸ hmem)
    omega
  case val =>
    intro k x hx
    change x.2.val = passed (s'.dropped + k) s'.pos
    have hx : rs.queue[k]? = some x := hx
    have hv := h.val (k + 1) x (by simpa [hs, hq] using hx)
    have hk : s.dropped + 1 + k = s.dropped + (k + 1) := by omega
    rw [hpos, hdrop, hk, passed_set (pos_getElem? hi), if_neg (by omega), hv]
    rfl
  case clock   => exact h.clock
  case pushing => exact hw ▸ h.pushing
  case put     => exact hw ▸ h.put

-- The frame stays for the others.
theorem Order.take_shared (h : Order s) (hi : s.received[i]? = some fs)
    (hq : s.rs.queue = us ++ (a, d) :: vs) (hp : s.dropped + us.length = fs.length)
    (hb : Readers.Inv rs) (hm : rs.useMax = s.rs.useMax) (hw : rs.writers = s.rs.writers)
    (hs : rs.queue = us ++ (a, { d with val := d.val + 1 }) :: vs) :
    Order { s with rs := rs, received := s.received.set i (fs ++ [d.name]) } := by
  have hval := h.val_taken hq hp
  have hrec := h.received_taken hi hq hp
  let s' := { s with rs := rs, received := s.received.set i (fs ++ [d.name]) }
  have hpos : s'.pos = s.pos.set i (fs.length + 1) := pos_set
  have hdrop : s'.dropped = s.dropped := by
    simp [State.dropped, s', hs, hq]
  constructor
  case base     => exact hb
  case useMax   => simpa [hm] using h.useMax
  case sorted   => exact h.sorted
  case positive => exact h.positive
  case received => exact hrec
  case queued =>
    have := h.queued
    change s'.queued = s.accepted.drop s'.dropped
    rw [hdrop]
    simpa [State.queued, s', hs, hq] using this
  case dropped =>
    intro p hmem
    change s'.dropped ≤ p
    have hmem : p ∈ s'.pos := hmem
    rw [hpos] at hmem
    rw [hdrop]
    cases List.mem_or_eq_of_mem_set hmem
    case inl hmem => exact h.dropped p hmem
    case inr hmem => omega
  case val =>
    intro k x hx
    change x.2.val = passed (s'.dropped + k) s'.pos
    have hx : rs.queue[k]? = some x := hx
    rw [hpos, hdrop, passed_set (pos_getElem? hi)]
    rw [hs, List.getElem?_append] at hx
    by_cases hk : k = us.length
    case pos =>
      subst hk
      have hx : x = (a, { d with val := d.val + 1 }) := by simpa using hx.symm
      rw [hx, if_pos hp, hp]
      change d.val + 1 = _
      omega
    case neg =>
      rw [if_neg (by omega)]
      apply h.val k x
      rw [hq, List.getElem?_append]
      split at hx
      case isTrue hlt  => simpa [hlt] using hx
      case isFalse hge =>
        obtain ⟨m, hm⟩ : ∃ m, k - us.length = m + 1 := ⟨k - us.length - 1, by omega⟩
        simpa [hge, hm] using hx
  case clock   => exact h.clock
  case pushing => exact hw ▸ h.pushing
  case put     => exact hw ▸ h.put

theorem Order.take (h : Order s) (hi : s.received[i]? = some fs)
    (hq : s.rs.queue = us ++ (a, d) :: vs) (hp : s.dropped + us.length = fs.length)
    (hb : Readers.Inv rs) (hm : rs.useMax = s.rs.useMax) (hw : rs.writers = s.rs.writers)
    (hs : rs.queue = if d.val + 1 ≥ s.rs.useMax then us ++ vs
      else us ++ (a, { d with val := d.val + 1 }) :: vs) :
    Order { s with rs := rs, received := s.received.set i (fs ++ [d.name]) } := by
  by_cases hl : d.val + 1 ≥ s.rs.useMax
  case pos => exact h.take_last hi hq hp hb hm hw hl (hs.trans (if_pos hl))
  case neg => exact h.take_shared hi hq hp hb hm hw (hs.trans (if_neg hl))

end

-- The steps that only the writer or a finished frame is about.
theorem Order.congr (h : Order s) (hb : Readers.Inv s'.rs) (hs : s'.rs.shm = s.rs.shm)
    (ha : s'.accepted = s.accepted) (hr : s'.received = s.received)
    (hc : s.frameId ≤ s'.frameId)
    (hw : ∀ p w, s'.rs.writers p = some w → s'.pushing = some p)
    (hp : ∀ p w, s'.rs.writers p = some (.put w) →
      0 < w.frameId ∧ w.frameId = s'.frameId ∧ ∀ f ∈ s'.accepted, f.frameId < w.frameId) :
    Order s' := by
  have hq : s'.rs.queue = s.rs.queue := by rw [Readers.State.queue, hs, Readers.State.queue]
  have hd : s'.dropped = s.dropped := by rw [State.dropped, ha, hq, State.dropped]
  have hpos : s'.pos = s.pos := by rw [State.pos, hr, State.pos]
  constructor
  case base => exact hb
  case useMax =>
    rw [hr, Readers.State.useMax, hs]
    exact h.useMax
  case sorted   => exact ha ▸ h.sorted
  case positive => exact ha ▸ h.positive
  case received =>
    rw [ha, hr]
    exact h.received
  case queued =>
    rw [State.queued, hq, ha, hd]
    exact h.queued
  case dropped =>
    rw [hd, hpos]
    exact h.dropped
  case val =>
    rw [hq, hd, hpos]
    exact h.val
  case clock =>
    rw [ha]
    exact ⟨Int.le_trans h.clock.left hc, fun f hf => Int.le_trans (h.clock.right f hf) hc⟩
  case pushing => exact hw
  case put     => exact hp

-- What a call of `copyFromShmWithUser` leaves.
theorem take_cases {cursor : List (ShmFrame β) → Int} (e : take cursor i s = some s') :
    ∃ fs, s.received[i]? = some fs ∧
      ((∀ x ∈ s.rs.queue, x.2.name.frameId ≤ cursor fs) ∧ s' = s ∨
      ∃ us a d vs rs, s.rs.queue = us ++ (a, d) :: vs ∧
        (∀ x ∈ us, x.2.name.frameId ≤ cursor fs) ∧ cursor fs < d.name.frameId ∧
        Readers.exec (.take i (cursor fs)) s.rs = some rs ∧
        rs = { s.rs with shm := rs.shm }.setReader i (.hold a s.rs.useMax) ∧
        rs.useMax = s.rs.useMax ∧
        rs.queue = (if d.val + 1 ≥ s.rs.useMax then us ++ vs
          else us ++ (a, { d with val := d.val + 1 }) :: vs) ∧
        s' = { s with rs := rs, received := s.received.set i (fs ++ [d.name]) }) := by
  simp only [take, Option.bind_eq_bind, Option.bind_eq_some_iff] at e
  have ⟨fs, hi, rs, hrs, e⟩ := e
  refine ⟨fs, hi, ?_⟩
  cases e
  have hloop : s.rs.readers[i]? = some .loop ∧
      Readers.copyFromShmWithUser i (cursor fs) s.rs = rs := by
    simpa [Readers.exec] using hrs
  rcases Shm.copyFromShmWithUser_cases (cursor fs) s.rs.shm with
    ⟨hle, hc⟩ | ⟨us, a, d, vs, hq, hle, hlt, hc⟩
  case inl =>
    refine .inl ⟨hle, ?_⟩
    have hrs : s.rs = rs := by
      rw [← hloop.right, Readers.copyFromShmWithUser, hc]
    have hset : s.received.set i fs = s.received := by
      obtain ⟨hl, rfl⟩ := List.getElem?_eq_some_iff.mp hi
      exact List.set_getElem_self hl
    simp [hc, ← hrs, hset]
  case inr =>
    refine .inr ⟨us, a, d, vs, rs, hq, hle, hlt, hrs, ?_⟩
    have hrs := hloop.right
    simp only [Readers.copyFromShmWithUser, hc] at hrs
    subst hrs
    exact ⟨rfl, rfl, rfl, by simp [hc]⟩

theorem Order.take_step {cursor : List (ShmFrame β) → Int} (h : Order s)
    (hc : ∀ fs us a d vs, s.received[i]? = some fs → s.rs.queue = us ++ (a, d) :: vs →
      (∀ x ∈ us, x.2.name.frameId ≤ cursor fs) → cursor fs < d.name.frameId →
      s.dropped + us.length = fs.length)
    (e : Delivery.take cursor i s = some s') : Order s' := by
  obtain ⟨fs, hi, h' | ⟨us, a, d, vs, rs, hq, hle, hlt, hrs, hset, hm, hs, rfl⟩⟩ := take_cases e
  case inl => exact h'.right ▸ h
  case inr =>
    have hw : rs.writers = s.rs.writers := by
      rw [hset]
      rfl
    have hb : Readers.Inv rs := Readers.Step.inv h.base (l := .take i _) trivial hrs
    exact h.take hi hq (hc fs us a d vs hi hq hle hlt) hb hm hw hs

theorem Order.malloc_step {p : Addr} {w : Readers.Write β} (h : Order s)
    (e : Delivery.malloc p w s = some s') : Order s' := by
  simp only [malloc, Option.ite_none_right_eq_some, Option.bind_eq_bind,
    Option.bind_eq_some_iff] at e
  obtain ⟨⟨hp, hlt⟩, rs, hrs, e⟩ := e
  cases e
  have hb := Readers.Step.inv h.base (l := .malloc p w) trivial hrs
  have hnone : ∀ q, s.rs.writers q = none := by
    intro q
    cases hq : s.rs.writers q
    case none   => rfl
    case some w => exact absurd (h.pushing q w hq) (by simp [hp])
  simp only [Readers.exec, Option.ite_none_left_eq_some] at hrs
  obtain ⟨-, hrs⟩ := hrs
  cases hrs
  have hq : ∀ q w', (if q = p then some (Readers.Writer.put w) else none) = some w' →
      q = p ∧ w' = .put w := by
    intro q w' he
    split at he
    case isTrue hqp => exact ⟨hqp, (Option.some.inj he).symm⟩
    case isFalse    => cases he
  refine h.congr hb rfl rfl rfl (Int.le_of_lt hlt) (fun q w' he => ?_) fun q w' he => ?_
  all_goals
    simp only [Readers.State.setWriter, Function.update_apply, hnone] at he
    obtain ⟨hqp, hw⟩ := hq q _ he
  case refine_1 => rw [hqp]
  case refine_2 =>
    cases hw
    obtain ⟨hpos, hc⟩ := h.clock
    exact ⟨Int.lt_of_le_of_lt hpos hlt, rfl, fun f hf => Int.lt_of_le_of_lt (hc f hf) hlt⟩

-- What a call of `putToShmQueue` leaves.
theorem put_cases {p : Addr} {node : Ptr} (e : put p node s = some s') :
    ∃ w rs, s.rs.writers p = some (.put w) ∧ Readers.exec (.put p node) s.rs = some rs ∧
      (rs = s.rs.setWriter p (some .free) ∧ s' = { s with rs := rs } ∨
      ∃ a, node = some a ∧ s.rs.nodes a = false ∧
        rs.shm.queue = { s.rs.shm.queue with nodes :=
          s.rs.queue ++ [(a, ⟨⟨w.type, p, w.buf, w.size, w.frameId⟩, 0, none⟩)] } ∧
        rs = { s.rs.setWriter p none with
          shm := rs.shm
          nodes := Function.update s.rs.nodes a true
          ptr := Function.update s.rs.ptr a p
          used := Function.update s.rs.used a 0 } ∧
        s' = { s with
          rs := rs
          pushing := none
          accepted := s.accepted ++ [⟨w.type, p, w.buf, w.size, w.frameId⟩]
          frameAt := Function.update s.frameAt a w.frameId }) := by
  simp only [put, Option.bind_eq_bind, Option.bind_eq_some_iff] at e
  obtain ⟨rs, hrs, e⟩ := e
  have hput := hrs
  simp only [Readers.exec] at hput
  split at hput
  case h_2 => cases hput
  case h_1 w hw =>
    refine ⟨w, rs, hw, hrs, ?_⟩
    obtain ⟨hn, hput⟩ := Option.ite_none_left_eq_some.mp hput
    cases hput
    rcases Shm.copyToShm_cases w.buf w.size w.frameId w.type w.max p node s.rs.shm with
      ⟨hr, hs⟩ | ⟨a, rfl, hc⟩
    case inl =>
      have hrs : Readers.putToShmQueue p w node s.rs = s.rs.setWriter p (some .free) := by
        simp [Readers.putToShmQueue, hr, hs]
      rw [hrs] at e ⊢
      refine .inl ⟨rfl, ?_⟩
      cases node <;> simpa [Readers.State.setWriter, hw] using e.symm
    case inr =>
      refine .inr ⟨a, rfl, by simpa using hn, ?_⟩
      have hrs : (Readers.putToShmQueue p w (some a) s.rs).writers p = none := by
        simp [Readers.putToShmQueue, hc, Readers.State.setWriter]
      simp only [hw, hrs, Option.pure_def, Option.some.injEq] at e
      subst e
      simp [Readers.putToShmQueue, hc, Readers.State.queue, Readers.State.setWriter]

-- There is one writer at most.
theorem Order.writers_eq_none (h : Order s) {p q : Addr} {w : Readers.Writer β}
    (hw : s.rs.writers p = some w) (hq : q ≠ p) : s.rs.writers q = none := by
  cases hx : s.rs.writers q
  case none   => rfl
  case some x =>
    have hp := (h.pushing q x hx).symm.trans (h.pushing p w hw)
    exact absurd (Option.some.inj hp) hq

theorem Order.no_writer (h : Order s) {p : Addr} {w : Readers.Writer β}
    (hw : s.rs.writers p = some w) (q : Addr) : (s.rs.setWriter p none).writers q = none := by
  by_cases hq : q = p
  case pos => simp [Readers.State.setWriter, hq]
  case neg => simpa [Readers.State.setWriter, hq] using h.writers_eq_none hw hq

-- A frame that is not put is freed again by its writer.
theorem Order.put_refused {p : Addr} {w : Readers.Write β} (h : Order s)
    (hw : s.rs.writers p = some (.put w)) (hb : Readers.Inv (s.rs.setWriter p (some .free))) :
    Order { s with rs := s.rs.setWriter p (some .free) } := by
  have hwr : ∀ q x, (s.rs.setWriter p (some .free)).writers q = some x → q = p ∧ x = .free := by
    intro q x he
    by_cases hq : q = p
    case pos => exact ⟨hq, by simpa [Readers.State.setWriter, hq] using he.symm⟩
    case neg => simp [Readers.State.setWriter, hq, h.writers_eq_none hw hq] at he
  refine h.congr hb rfl rfl rfl (Int.le_refl _) (fun q x he => ?_) fun q x he => ?_
  case refine_1 => exact (hwr q x he).left ▸ h.pushing p _ hw
  case refine_2 => cases (hwr q _ he).right

-- No reader has passed a frame that was not there before.
theorem Order.passed_new (h : Order s) : passed s.accepted.length s.pos = 0 := by
  rw [passed_eq_zero]
  intro q hq
  obtain ⟨fs, hf, rfl⟩ := List.mem_map.mp hq
  exact (h.received fs hf).length_le

theorem Order.put_queued {p a : Addr} {w : Readers.Write β} {rs : Readers.State β}
    {f : ShmFrame β} (h : Order s) (hw : s.rs.writers p = some (.put w))
    (hf : f.frameId = w.frameId) (hb : Readers.Inv rs) (hm : rs.useMax = s.rs.useMax)
    (hq : rs.queue = s.rs.queue ++ [(a, ⟨f, 0, none⟩)]) (hnone : ∀ q, rs.writers q = none) :
    Order { s with
      rs := rs, pushing := none, accepted := s.accepted ++ [f],
      frameAt := Function.update s.frameAt a w.frameId } := by
  have ⟨hpos, hid, hlt⟩ := h.put p w hw
  rw [← hf] at hpos hid hlt
  let s' := { s with
    rs := rs, pushing := none, accepted := s.accepted ++ [f],
    frameAt := Function.update s.frameAt a w.frameId }
  have hdrop : s'.dropped = s.dropped := by
    simp [State.dropped, hq, s']
  have hle : s.dropped ≤ s.accepted.length := Nat.sub_le _ _
  have hmem : ∀ g ∈ s.accepted ++ [f], g ∈ s.accepted ∨ g = f := by simp
  constructor
  case base   => exact hb
  case useMax => exact hm.trans h.useMax
  case sorted =>
    rw [List.map_append, List.pairwise_append]
    exact ⟨h.sorted, by simp, by simpa using hlt⟩
  case positive =>
    intro g hg
    cases hmem g hg
    case inl hg => exact h.positive g hg
    case inr hg => exact hg ▸ hpos
  case received =>
    intro fs hf
    exact (h.received fs hf).trans (List.prefix_append _ _)
  case queued =>
    change s'.queued = (s.accepted ++ [f]).drop s'.dropped
    rw [hdrop, List.drop_append_of_le_length hle, ← h.queued, State.queued, hq]
    simp [State.queued]
  case dropped => exact hdrop ▸ h.dropped
  case val =>
    intro k x hx
    change x.2.val = passed (s'.dropped + k) s.pos
    have hx : rs.queue[k]? = some x := hx
    rw [hq, List.getElem?_append] at hx
    rw [hdrop]
    split at hx
    case isTrue => exact h.val k x hx
    case isFalse hge =>
      have hk : k = s.rs.queue.length := by
        by_contra hk
        have hk : k - s.rs.queue.length ≠ 0 := by omega
        simp [hk] at hx
      subst hk
      rw [h.dropped_add, h.passed_new]
      have hx : x = (a, ⟨f, 0, none⟩) := by simpa using hx.symm
      rw [hx]
      rfl
  case clock =>
    refine ⟨h.clock.left, fun g hg => ?_⟩
    cases hmem g hg
    case inl hg => exact h.clock.right g hg
    case inr hg =>
      subst hg
      exact Int.le_of_eq hid
  case pushing => exact fun q w' he => absurd (he.symm.trans (hnone q)) (by simp)
  case put     => exact fun q w' he => absurd (he.symm.trans (hnone q)) (by simp)

theorem Order.put_step {p : Addr} {node : Ptr} (h : Order s)
    (e : Delivery.put p node s = some s') : Order s' := by
  obtain ⟨w, rs, hw, hrs, h' | ⟨a, rfl, hn, hq, hset, rfl⟩⟩ := put_cases e
  case inl =>
    obtain ⟨rfl, rfl⟩ := h'
    exact h.put_refused hw (Readers.Step.inv h.base (l := .put p node) trivial hrs)
  case inr =>
    have hb := Readers.Step.inv h.base (l := .put p (some a)) trivial hrs
    apply h.put_queued hw rfl hb (congrArg (·.useMax) hq) (congrArg (·.nodes) hq)
    intro q
    rw [hset]
    exact h.no_writer hw q

theorem Order.free_step {p : Addr} (h : Order s) (e : Delivery.free p s = some s') : Order s' := by
  simp only [Delivery.free, Option.bind_eq_bind, Option.bind_eq_some_iff] at e
  have ⟨rs, hrs, e⟩ := e
  cases e
  have hb := Readers.Step.inv h.base (l := .free p) trivial hrs
  simp only [Readers.exec] at hrs
  split at hrs <;> cases hrs
  case h_1 hw =>
    have hnone : ∀ q w, ((s.rs.freeBlock p).setWriter p none).writers q ≠ some w := by
      intro q w hq
      cases (h.no_writer hw q).symm.trans hq
    exact h.congr hb rfl rfl rfl (Int.le_refl _) (fun q w hq => absurd hq (hnone q w))
      fun q w hq => absurd hq (hnone q _)

theorem Order.finish_step (h : Order s) (e : finish i s = some s') : Order s' := by
  simp only [finish, Option.bind_eq_bind, Option.bind_eq_some_iff] at e
  have ⟨pc, hi, rs, hrs, e⟩ := e
  have hb := Readers.Step.inv h.base (l := .finish i) trivial hrs
  simp only [Readers.exec, hi] at hrs
  cases pc <;> simp only [Option.pure_def, Option.some.injEq, reduceCtorEq] at hrs e <;>
    subst hrs e
  all_goals exact h.congr hb rfl rfl rfl (Int.le_refl _) h.pushing h.put

theorem joined_order (type : CStr) (n : Nat) : Order (joined type n : State β) := by
  refine ⟨⟨rfl, List.nodup_nil, fun a => .free rfl List.not_mem_nil ?_, .empty ?_⟩, ?_,
    .nil, nofun, fun fs hf => ?_, rfl, fun _ _ => Nat.zero_le _, nofun, ⟨Int.le_refl _, nofun⟩,
    nofun, nofun⟩
  case refine_1 => simp [Readers.State.readersOf, joined, Readers.Pc.node]
  case refine_2 =>
    rintro (a | p) q ⟨-, ho⟩
    case node =>
      cases ho
      case inl ha => exact List.not_mem_nil ha
      case inr hr =>
        obtain ⟨pc, hr, hb⟩ := hr
        rw [List.eq_of_mem_replicate hr] at hb
        cases hb
    case writer => cases ho
  case refine_3 => simp [joined, Readers.State.useMax]
  case refine_4 =>
    rw [List.eq_of_mem_replicate hf]
    exact List.nil_prefix

section

variable {f g : ShmFrame β} {fs : List (ShmFrame β)} {j k : Nat}

theorem Order.frameId_lt (h : Order s) (hj : s.accepted[j]? = some f)
    (hk : s.accepted[k]? = some g) (hlt : j < k) : f.frameId < g.frameId := by
  obtain ⟨_, rfl⟩ := List.getElem?_eq_some_iff.mp hj
  obtain ⟨hl, rfl⟩ := List.getElem?_eq_some_iff.mp hk
  have := List.pairwise_iff_getElem.mp h.sorted j k (by simp; omega) (by simpa using hl) hlt
  simpa using this

theorem Order.le_of_frameId_le (h : Order s) (hj : s.accepted[j]? = some f)
    (hk : s.accepted[k]? = some g) (hle : f.frameId ≤ g.frameId) : j ≤ k := by
  by_contra hlt
  have := h.frameId_lt hk hj (Nat.not_le.mp hlt)
  omega

theorem Order.nodup_ids (h : Order s) : (s.accepted.map ShmFrame.frameId).Nodup :=
  h.sorted.imp Int.ne_of_lt

theorem Order.nodup (h : Order s) : s.accepted.Nodup :=
  .of_map _ h.nodup_ids

-- A reader has been handed a frame if it is past its place.
theorem Order.mem_received (h : Order s) (hf : fs ∈ s.received) (hk : s.accepted[k]? = some f) :
    f ∈ fs ↔ k < fs.length := by
  have hp := h.received fs hf
  constructor
  case mp =>
    intro hm
    have ⟨j, hj, he⟩ := List.getElem_of_mem hm
    have hj' : s.accepted[j]? = some f := by
      rw [← he]
      exact List.prefix_iff_getElem?.mp hp j hj
    have := h.le_of_frameId_le hk hj' (Int.le_refl _)
    omega
  case mpr =>
    intro hlt
    have := List.prefix_iff_getElem?.mp hp k hlt
    rw [hk] at this
    exact Option.some.inj this ▸ List.getElem_mem hlt

-- What is not queued any more, every reader was handed.
theorem Order.handed (h : Order s) (hf : f ∈ s.accepted) (hq : f ∉ s.queued) :
    ∀ fs ∈ s.received, f ∈ fs := by
  intro fs hfs
  have ⟨k, hk⟩ := List.mem_iff_getElem?.mp hf
  have hle := h.dropped _ (List.mem_map_of_mem hfs)
  apply (h.mem_received hfs hk).mpr
  by_contra hlt
  apply hq
  rw [h.queued, List.mem_iff_getElem?]
  refine ⟨k - s.dropped, ?_⟩
  rw [List.getElem?_drop, ← hk]
  congr 1
  omega

-- And what every reader was handed is not queued any more.
theorem Order.not_queued (h : Order s) (hn : s.received ≠ [])
    (hall : ∀ fs ∈ s.received, f ∈ fs) : f ∉ s.queued := by
  intro hq
  obtain ⟨x, hx, rfl⟩ := List.mem_map.mp hq
  have ⟨k, hk⟩ := List.mem_iff_getElem?.mp hx
  have hlt := h.val_lt hn hk
  have hlen : passed (s.dropped + k) s.pos = s.pos.length := by
    rw [passed_eq_length]
    intro p hp
    obtain ⟨fs, hfs, rfl⟩ := List.mem_map.mp hp
    exact (h.mem_received hfs (h.getElem?_queue hk)).mp (hall fs hfs)
  simp only [State.pos, List.length_map] at hlen hlt
  omega

-- The frames that are still ahead of a reader are queued.
theorem Order.ahead (h : Order s) (hf : fs ∈ s.received) :
    ∃ ahead, s.accepted = fs ++ ahead ∧ ahead <:+ s.queued := by
  have ⟨ahead, ha⟩ := h.received fs hf
  refine ⟨ahead, ha.symm, ?_⟩
  have hle := h.dropped _ (List.mem_map_of_mem hf)
  rw [h.queued, ← ha, List.drop_append_of_le_length hle]
  exact List.suffix_append _ _

end

-- A step keeps the order when those of the readers take the frames that they are at.
theorem Step.order {cursor : List (ShmFrame β) → Int} {l : Label β} (h : Order s)
    (hc : ∀ i fs us a d vs, l = .take i → s.received[i]? = some fs →
      s.rs.queue = us ++ (a, d) :: vs → (∀ x ∈ us, x.2.name.frameId ≤ cursor fs) →
      cursor fs < d.name.frameId → s.dropped + us.length = fs.length)
    (e : Step cursor s l s') : Order s' := by
  cases l
  case malloc => exact h.malloc_step e
  case put    => exact h.put_step e
  case free   => exact h.free_step e
  case finish => exact h.finish_step e
  case take i => exact h.take_step (fun fs us a d vs => hc i fs us a d vs rfl) e

end Delivery
