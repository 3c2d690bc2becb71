import Aiotc.Library.Run
import Aiotc.Share.QueueCommon

-- What the queues are for: a list of nodes, and the operations as functions on that list. The
-- pointer structures of `Share.QueueCommon` refine it.

open Heap

namespace Share

variable {α : Type}

structure AbsQueue (α : Type) where
  nodes : List (Addr × NodeData α) := []
  useMax : Int := 0

structure AbsResult (α : Type) where
  queue : AbsQueue α
  ret : Int := 0
  newP : Ptr := none

namespace AbsQueue

def put (full : Int → Int) (new : NodeData α) (max : Int) (malloc : Ptr) (q : AbsQueue α) :
    AbsResult α :=
  if q.nodes.length < max then
    match malloc with
    | none   => { queue := q, ret := -1 }
    | some a => { queue := { q with nodes := q.nodes ++ [(a, new)] } }
  else
    { queue := q, ret := full q.nodes.length }

def get (q : AbsQueue α) : AbsResult α where
  queue := { q with nodes := q.nodes.tail }
  newP := (addrs q.nodes).head?

def del (condition : Addr × NodeData α → Int) (q : AbsQueue α) : AbsResult α where
  queue := { q with nodes := q.nodes.eraseP (condition · = 1) }
  newP := (q.nodes.find? (condition · = 1)).map Prod.fst

-- The first node for which `condition` returns 1 is counted as taken once more, and leaves with
-- its last taker.
def takeFirst (condition : Addr × NodeData α → Int) (useMax : Int) :
    List (Addr × NodeData α) → List (Addr × NodeData α)
  | []           => []
  | (a, d) :: xs =>
    if condition (a, d) = 1 then
      if d.val + 1 ≥ useMax then xs else (a, { d with val := d.val + 1 }) :: xs
    else
      (a, d) :: takeFirst condition useMax xs

def delByUser (condition : Addr × NodeData α → Int) (q : AbsQueue α) : AbsResult α where
  queue := { q with nodes := takeFirst condition q.useMax q.nodes }
  newP := (q.nodes.find? (condition · = 1)).map Prod.fst

section

variable {condition : Addr × NodeData α → Int} {q : AbsQueue α} {us vs : List (Addr × NodeData α)}
  {a : Addr} {d : NodeData α}

theorem find?_of_none (hc : ∀ x ∈ q.nodes, condition x ≠ 1) :
    q.nodes.find? (condition · = 1) = none := by
  simpa using hc

theorem find?_of_first (hn : q.nodes = us ++ (a, d) :: vs) (hc : ∀ x ∈ us, condition x ≠ 1)
    (ha : condition (a, d) = 1) : q.nodes.find? (condition · = 1) = some (a, d) := by
  refine List.find?_eq_some_iff_append.mpr ⟨by simpa using ha, us, vs, hn, ?_⟩
  simpa using hc

theorem del_of_none (hc : ∀ x ∈ q.nodes, condition x ≠ 1) : q.del condition = { queue := q } := by
  have he : q.nodes.eraseP (condition · = 1) = q.nodes :=
    List.eraseP_of_forall_not (by simpa using hc)
  simp [del, he, find?_of_none hc]

theorem del_of_first (hn : q.nodes = us ++ (a, d) :: vs) (hc : ∀ x ∈ us, condition x ≠ 1)
    (ha : condition (a, d) = 1) :
    q.del condition = { queue := ⟨us ++ vs, q.useMax⟩, newP := some a } := by
  have he : q.nodes.eraseP (condition · = 1) = us ++ vs := by
    rw [hn, List.eraseP_append_right _ (by simpa using hc),
      List.eraseP_cons_of_pos (by simpa using ha)]
  simp [del, he, find?_of_first hn hc ha]

theorem takeFirst_append (u : Int) (vs : List (Addr × NodeData α))
    (hc : ∀ x ∈ us, condition x ≠ 1) :
    takeFirst condition u (us ++ vs) = us ++ takeFirst condition u vs := by
  induction us
  case nil => rfl
  case cons x us hi =>
    have hx := hc x (by simp)
    simp [takeFirst, hx, hi fun y hy => hc y (by simp [hy])]

theorem delByUser_of_none (hc : ∀ x ∈ q.nodes, condition x ≠ 1) :
    q.delByUser condition = { queue := q } := by
  have he := takeFirst_append q.useMax [] hc
  simp only [List.append_nil, takeFirst] at he
  simp [delByUser, he, find?_of_none hc]

theorem delByUser_of_first (hn : q.nodes = us ++ (a, d) :: vs) (hc : ∀ x ∈ us, condition x ≠ 1)
    (ha : condition (a, d) = 1) :
    q.delByUser condition =
      if d.val + 1 ≥ q.useMax then
        { queue := ⟨us ++ vs, q.useMax⟩, newP := some a }
      else
        { queue := ⟨us ++ (a, { d with val := d.val + 1 }) :: vs, q.useMax⟩, newP := some a } := by
  have he := takeFirst_append q.useMax ((a, d) :: vs) hc
  simp only [takeFirst, ha, if_true] at he
  have hf := find?_of_first hn hc ha
  simp only [delByUser, hn, he] at hf ⊢
  rw [hf]
  split <;> rfl

end

end AbsQueue

theorem first_match (condition : Addr × NodeData α → Int) (xs : List (Addr × NodeData α)) :
    (∀ x ∈ xs, condition x ≠ 1) ∨ ∃ us a d vs, xs = us ++ (a, d) :: vs ∧
      (∀ x ∈ us, condition x ≠ 1) ∧ condition (a, d) = 1 := by
  cases hf : xs.find? (condition · = 1)
  case none => exact .inl (by simpa using hf)
  case some x =>
    have ⟨ha, us, vs, hn, hc⟩ := List.find?_eq_some_iff_append.mp hf
    exact .inr ⟨us, x.1, x.2, vs, hn, by simpa using hc, by simpa using ha⟩

theorem last_or {us : List (Addr × NodeData α)} {p : Ptr} :
    us ≠ [] → (addrs us).getLast?.or p = (addrs us).getLast? := by
  intro hn
  have ⟨us, x, hx⟩ := (List.eq_nil_or_concat' us).resolve_left hn
  simp [hx]

def spec : Op α → AbsQueue α → AbsResult α
  | .putToQueue new max malloc, q      => q.put id new max malloc
  | .putToShmQueue new max malloc, q   => q.put (fun _ => -1) new max malloc
  | .getFromQueue, q                   => q.get
  | .delFromQueue condition, q         => q.del condition
  | .delFromQueueByUser condition, q   => q.delByUser condition
  | .freeQueue _, q | .freeShmQueue _, q => { queue := { q with nodes := [] } }
  | .setUseMax useMax, q               => { queue := { q with useMax := useMax } }
  | .free _, q                         => { queue := q }

def specRun (ops : List (Op α)) (q : AbsQueue α) : AbsQueue α :=
  ops.foldl (fun q op => (spec op q).queue) q

structure Represents (s : Store α) (q : AbsQueue α) : Prop where
  seg    : Segment s.nodes s.queue.head q.nodes none
  tail   : s.queue.tail = (addrs q.nodes).getLast?
  len    : s.queue.queLen = q.nodes.length
  useMax : s.queue.useMax = q.useMax

structure Refines (r : Result α) (r' : AbsResult α) : Prop where
  represents  : Represents r.store r'.queue
  ret         : r.ret = r'.ret
  newP        : r.newP = r'.newP
  noException : r.exception = false

-- The shape the pointers have: the way from `head` visits `queLen` distinct nodes and ends, with
-- NULL behind it, at `tail`.
structure WellFormed (s : Store α) (xs : List (Addr × NodeData α)) : Prop where
  head_iff : s.queue.head = none ↔ s.queue.tail = none
  tail_iff : s.queue.tail = none ↔ s.queue.queLen = 0
  visits   : Segment s.nodes s.queue.head xs none
  count    : s.queue.queLen = xs.length
  distinct : (addrs xs).Nodup
  last     : ∀ a ∈ s.queue.tail,
    xs.getLast?.map Prod.fst = some a ∧ (s.nodes a).map Cell.next = some none

namespace Represents

variable {s : Store α} {q : AbsQueue α}

theorem nodup (h : Represents s q) : (addrs q.nodes).Nodup :=
  h.seg.nodup

theorem head (h : Represents s q) : s.queue.head = (addrs q.nodes).head? :=
  h.seg.head_eq

theorem fuel_eq (h : Represents s q) : fuel s = q.nodes.length + 1 := by
  simp [fuel, h.len]

theorem put (h : Represents s q) (full : Int → Int) {new max malloc}
    (hm : ∀ a ∈ malloc, s.nodes a = none) :
    ∃ r, Share.put full new max malloc s = some r ∧ Refines r (q.put full new max malloc) := by
  simp only [Share.put, AbsQueue.put, h.len]
  split
  case isFalse => exact ⟨_, rfl, h, rfl, rfl, rfl⟩
  case isTrue =>
    cases malloc
    case none => exact ⟨_, rfl, h, rfl, rfl, rfl⟩
    case some a =>
      have hf : a ∉ addrs q.nodes := by
        intro hc
        obtain ⟨c, hc⟩ := h.seg.mem_allocated hc
        simp [hm a rfl] at hc
      rcases List.eq_nil_or_concat' q.nodes with hn | ⟨xs, ⟨b, d⟩, hn⟩
      case inl =>
        have hh : s.queue.head = none := by simp [h.head, hn]
        simp only [hh, hn]
        exact ⟨_, rfl, ⟨by simp, by simp, by simp, h.useMax⟩, rfl, rfl, rfl⟩
      case inr =>
        have hs := h.seg
        have ht := h.tail
        simp only [hn] at hs ht hf
        have hd : b ∉ addrs xs := by
          have := hs.nodup
          simp only [List.map_append, List.nodup_append] at this
          grind
        have hab : b ≠ a := by grind
        obtain ⟨e, he⟩ : ∃ e, s.queue.head = some e := by
          cases xs
          case nil  => exact ⟨_, hs.left⟩
          case cons => exact ⟨_, hs.left⟩
        have hb := (Segment.snoc_iff.mp hs).right
        have hu := (hs.update hf (some ⟨new, none⟩)).setNext hd (some a)
        have ha : Function.update (Function.update s.nodes a (some ⟨new, none⟩)) b
            (some ⟨d, some a⟩) a = some ⟨new, none⟩ := by
          simp [Function.update_of_ne hab.symm]
        simp only [he, ht, setNext, List.map_append, List.map_cons, List.map_nil,
          List.getLast?_append, List.getLast?_singleton, Option.some_or, bind, pure,
          Option.bind_some, Function.update_of_ne hab, hb]
        refine ⟨_, rfl, ⟨?_, ?_, ?_, h.useMax⟩, rfl, rfl, rfl⟩
        case refine_1 =>
          rw [hn]
          exact he ▸ hu.append (Segment.cons_iff.mpr ⟨rfl, _, ha, rfl⟩)
        case refine_2 => simp
        case refine_3 => simp [hn]; omega

theorem get (h : Represents s q) :
    ∃ r, getFromQueue s = some r ∧ Refines r q.get := by
  have hs := h.seg
  have ht := h.tail
  have hl := h.len
  have ⟨xs, u⟩ := q
  cases xs
  case nil =>
    have hh : s.queue.head = none := hs
    simp only [getFromQueue, hh]
    exact ⟨_, rfl, ⟨hs, ht, hl, h.useMax⟩, rfl, rfl, rfl⟩
  case cons x xs =>
    have ⟨hh, r, ha, hs⟩ := hs
    have hn : ¬(s.queue.queLen - 1 < 0) := by simp [hl]
    simp only [getFromQueue, hh, ha, bind, Option.bind_some, hn, if_false, pure]
    refine ⟨_, rfl, ⟨hs, ?_, ?_, h.useMax⟩, rfl, rfl, rfl⟩
    case refine_1 =>
      cases xs
      case nil  => simp [AbsQueue.get, show r = none from hs]
      case cons => simp [AbsQueue.get, hs.left, ht]
    case refine_2 => simp [AbsQueue.get, hl]

theorem nodup_ne_last {us vs : List (Addr × NodeData α)} {a c : Addr} {f : NodeData α}
    (hd : (addrs us ++ a :: addrs (vs ++ [(c, f)])).Nodup) : c ≠ a := by
  simp only [List.map_append, List.map_cons, List.map_nil] at hd
  have := (List.nodup_append.mp hd).right.left
  grind

theorem nodup_before {us vs : List (Addr × NodeData α)} {a b : Addr} {e : NodeData α}
    (hd : (addrs (us ++ [(b, e)]) ++ a :: addrs vs).Nodup) :
    b ∉ addrs us ∧ b ∉ addrs vs ∧ (addrs (us ++ [(b, e)]) ++ a :: addrs vs).head? ≠ some a := by
  simp only [List.map_append, List.map_cons, List.map_nil] at hd ⊢
  obtain ⟨hub, -, hne⟩ := List.nodup_append.mp hd
  refine ⟨fun hm => ?_, fun hm => ?_, fun hh => ?_⟩
  case refine_1 => exact (List.nodup_append.mp hub).right.right b hm b (by simp) rfl
  case refine_2 => exact hne b (by simp) b (List.mem_cons_of_mem _ hm) rfl
  case refine_3 =>
    have hn : List.map Prod.fst us ++ [b] ≠ [] := List.append_ne_nil_of_right_ne_nil _ (by simp)
    rw [List.head?_append_of_ne_nil _ hn] at hh
    exact hne a (List.mem_of_head? hh) a List.mem_cons_self rfl

-- Before the node `(a, d)` in the list `prev` points to the last node passed.
theorem unlink {us vs : List (Addr × NodeData α)} {a : Addr} {d : NodeData α} {r : Ptr}
    {u : Int} (h : Represents s ⟨us ++ (a, d) :: vs, u⟩) (prev : Ptr) (ha : s.nodes a = some ⟨d, r⟩)
    (hp : us ≠ [] → prev = (addrs us).getLast?) :
    ∃ r', Share.unlink prev a ⟨d, r⟩ s = some r' ∧
      Refines r' { queue := ⟨us ++ vs, u⟩, newP := some a } := by
  have hs := h.seg
  have ht := h.tail
  have hh := h.head
  have hd := h.nodup
  have hl : ¬(s.queue.queLen - 1 < 0) ∧ s.queue.queLen - 1 = (us ++ vs).length := by
    have := h.len
    simp at this ⊢
    omega
  simp only [List.map_append, List.map_cons] at ht hh hd
  have ⟨m, hus, hm, r', ha', hvs⟩ := Segment.append_iff.mp hs
  cases Option.some.inj (ha.symm.trans ha')
  -- The cases of `unlink` are those of a node with or without nodes before and behind it.
  rcases List.eq_nil_or_concat' us with rfl | ⟨us, ⟨b, e⟩, rfl⟩ <;>
    rcases List.eq_nil_or_concat' vs with rfl | ⟨vs, ⟨c, f⟩, rfl⟩
  case inl.inl =>
    have hq : s.queue.head = some a ∧ s.queue.tail = some a := by simp [hh, ht]
    simp only [Share.unlink, hq, and_self, if_true, bind, Option.bind_some, hl.left, if_false, pure]
    exact ⟨_, rfl, ⟨rfl, rfl, hl.right, h.useMax⟩, rfl, rfl, rfl⟩
  case inl.inr =>
    have hq : s.queue.head = some a ∧ s.queue.tail = some c := by simp [hh, ht, List.getLast?_cons]
    have hca : c ≠ a := nodup_ne_last hd
    simp only [Share.unlink, hq, Option.some.injEq, hca, and_false, if_false, if_true, bind,
      Option.bind_some, hl.left, pure]
    exact ⟨_, rfl, ⟨hvs, by simp, hl.right, h.useMax⟩, rfl, rfl, rfl⟩
  all_goals
    have hb := nodup_before hd
    have hn : s.queue.head ≠ some a := hh ▸ hb.right.right
    have hp : prev = some b := by simp [hp]
    obtain ⟨-, hbm⟩ := Segment.snoc_iff.mp hus
    simp only [Share.unlink, hn, false_and, if_false, hp, setNext, hbm, bind, pure,
      Option.bind_some]
  case inr.inl =>
    have hq : s.queue.tail = some a := by simp [ht]
    simp only [hq, if_true, hl.left, if_false]
    refine ⟨_, rfl, ⟨?_, by simp, hl.right, h.useMax⟩, rfl, rfl, rfl⟩
    simpa using hus.setNext hb.left none
  case inr.inr =>
    have hq : s.queue.tail = some c := by simp [ht, List.getLast?_cons]
    have hca : c ≠ a := nodup_ne_last hd
    simp only [hq, Option.some.injEq, hca, if_false, hl.left]
    refine ⟨_, rfl, ⟨?_, by simp [List.getLast?_cons], hl.right, h.useMax⟩, rfl, rfl, rfl⟩
    exact (hus.setNext hb.left r).append (hvs.update hb.right.left _)

section

variable {condition : Addr × NodeData α → Int}
  {found : Ptr → Addr → NodeCommon α → Option (Result α)} {us : List (Addr × NodeData α)}

theorem walk_none {n : Nat} {prev p : Ptr} (hs : Segment s.nodes p us none) (hn : us.length < n)
    (hc : ∀ x ∈ us, condition x ≠ 1) :
    walk condition found s n prev p = some { store := s } := by
  induction us generalizing n prev p <;> cases n <;> try simp at hn
  case nil.succ => cases hs; rfl
  case cons.succ x us hi n =>
    obtain ⟨rfl, r, ha, hs⟩ := hs
    have hx := hc x (by simp)
    simp only [walk, ha, bind, Option.bind_some, hx, if_false]
    exact hi hs hn fun y hy => hc y (by simp [hy])

-- The loop stops at the first node that meets the condition, with `prev` at the node before it.
theorem walk_found {n : Nat} {p : Ptr} {a : Addr} {d : NodeData α}
    {vs : List (Addr × NodeData α)} (found : Ptr → Addr → NodeCommon α → Option (Result α))
    (prev : Ptr) (hs : Segment s.nodes p (us ++ (a, d) :: vs) none)
    (hn : us.length < n) (hc : ∀ x ∈ us, condition x ≠ 1) (ha : condition (a, d) = 1) :
    ∃ r, s.nodes a = some ⟨d, r⟩ ∧
      walk condition found s n prev p = found ((addrs us).getLast?.or prev) a ⟨d, r⟩ := by
  induction us generalizing n prev p <;> cases n <;> try simp at hn
  case nil.succ =>
    obtain ⟨rfl, r, hr, -⟩ := hs
    exact ⟨r, hr, by simp [walk, hr, ha]⟩
  case cons.succ x us hi n =>
    obtain ⟨rfl, r, hr, hs⟩ := hs
    have hx := hc x (by simp)
    have ⟨r', hr', hw⟩ := hi (some x.1) hs hn fun y hy => hc y (by simp [hy])
    refine ⟨r', hr', ?_⟩
    simp only [walk, hr, bind, Option.bind_some, hx, if_false, hw, List.map_cons,
      List.getLast?_cons]
    cases (addrs us).getLast? <;> rfl

end

theorem del (h : Represents s q) (condition : Addr × NodeData α → Int) :
    ∃ r, delFromQueue condition s = some r ∧ Refines r (q.del condition) := by
  have hs := h.seg
  rcases first_match condition q.nodes with hc | ⟨us, a, d, vs, hn, hc, ha⟩
  case inl =>
    rw [AbsQueue.del_of_none hc]
    exact ⟨_, walk_none hs (by simp [h.fuel_eq]) hc, h, rfl, rfl, rfl⟩
  case inr =>
    have hl : us.length < fuel s := by
      simp only [h.fuel_eq, hn, List.length_append, List.length_cons]
      omega
    rw [hn] at hs
    have ⟨r, hr, hw⟩ := walk_found (fun prev a c => Share.unlink prev a c s)
      s.queue.head hs hl hc ha
    have h' : Represents s ⟨us ++ (a, d) :: vs, q.useMax⟩ := hn ▸ h
    have ⟨r', hu, hr'⟩ := h'.unlink ((addrs us).getLast?.or s.queue.head) hr last_or
    rw [AbsQueue.del_of_first hn hc ha]
    exact ⟨r', hw.trans hu, hr'⟩

-- Counting a taker changes the `val` of its node only.
theorem take (h : Represents s q) {us vs : List (Addr × NodeData α)} {a : Addr}
    {d : NodeData α} {r : Ptr} (hn : q.nodes = us ++ (a, d) :: vs) (hr : s.nodes a = some ⟨d, r⟩)
    (d' : NodeData α) :
    Represents { s with nodes := Function.update s.nodes a (some ⟨d', r⟩) }
      ⟨us ++ (a, d') :: vs, q.useMax⟩ := by
  have hs := h.seg
  have hd := h.nodup
  have ht := h.tail
  have hl := h.len
  simp only [hn, List.map_append, List.map_cons] at hs hd ht hl
  obtain ⟨-, hda, hne⟩ := List.nodup_append.mp hd
  have hu : a ∉ addrs us := fun hm => hne a hm a (by simp) rfl
  exact {
    seg    := hs.setData hu (List.nodup_cons.mp hda).left hr d'
    tail   := by simpa using ht
    len    := by simpa using hl
    useMax := h.useMax
  }

theorem delByUser (h : Represents s q) (condition : Addr × NodeData α → Int) :
    ∃ r, delFromQueueByUser condition s = some r ∧ Refines r (q.delByUser condition) := by
  have hs := h.seg
  rcases first_match condition q.nodes with hc | ⟨us, a, d, vs, hn, hc, ha⟩
  case inl =>
    rw [AbsQueue.delByUser_of_none hc]
    exact ⟨_, walk_none hs (by simp [h.fuel_eq]) hc, h, rfl, rfl, rfl⟩
  case inr =>
    have hl : us.length < fuel s := by
      simp only [h.fuel_eq, hn, List.length_append, List.length_cons]
      omega
    rw [hn] at hs
    have ⟨r, hr, hw⟩ := walk_found (delFromQueueByUser.found s) s.queue.head hs hl hc ha
    have ht := h.take hn hr { d with val := d.val + 1 }
    rw [AbsQueue.delByUser_of_first hn hc ha]
    split
    case isTrue hv =>
      have ⟨r', hu, hr'⟩ := ht.unlink (r := r) ((addrs us).getLast?.or s.queue.head)
        (by simp) last_or
      refine ⟨r', hw.trans ?_, hr'⟩
      simpa only [delFromQueueByUser.found, h.useMax, ge_iff_le, hv, if_true] using hu
    case isFalse hv =>
      refine ⟨{ store := _, newP := some a }, hw.trans ?_, ht, rfl, rfl, rfl⟩
      simp [delFromQueueByUser.found, h.useMax, hv]

theorem freeLoop (callBack : Option (CallBack α)) {xs : List (Addr × NodeData α)} {n : Nat}
    {p : Ptr} (hs : Segment s.nodes p xs none) (hn : xs.length < n) :
    ∃ s', Share.freeLoop callBack n p s = some s' ∧ s'.queue = s.queue := by
  induction xs generalizing n p s <;> cases n <;> try simp at hn
  case nil.succ => cases hs; exact ⟨s, rfl, rfl⟩
  case cons.succ x xs hi n =>
    have hd := (List.nodup_cons.mp hs.nodup).left
    obtain ⟨rfl, r, ha, hs⟩ := hs
    simp only [Share.freeLoop, ha, bind, Option.bind_some]
    exact hi (s := { s with nodes := _, blocks := _ }) (hs.update hd none) hn

theorem freeAll (h : Represents s q) (callBack : Option (CallBack α)) :
    ∃ r, Share.freeAll callBack s = some r ∧ Refines r { queue := { q with nodes := [] } } := by
  have ⟨s', hf, hq⟩ := freeLoop callBack h.seg (n := fuel s) (by simp [h.fuel_eq])
  simp only [Share.freeAll, hf, bind, Option.bind_some, pure]
  exact ⟨_, rfl, ⟨rfl, rfl, rfl, by simp [hq, h.useMax]⟩, rfl, rfl, rfl⟩

-- The nodes of the queue are linked, so none of them is freed by a caller.
theorem free (h : Represents s q) {a : Addr} (hl : ¬Linked s a) :
    Represents { s with nodes := Function.update s.nodes a none } q :=
  { h with seg := h.seg.update (fun hm => hl ⟨_, _, h.seg, hm⟩) none }

theorem exec (h : Represents s q) {op : Op α} (ha : Allowed s op) :
    ∃ r, Share.exec op s = some r ∧ Refines r (spec op q) := by
  cases op
  case putToQueue                    => exact h.put id ha
  case putToShmQueue                 => exact h.put (fun _ => -1) ha
  case getFromQueue                  => exact h.get
  case delFromQueue condition        => exact h.del condition
  case delFromQueueByUser condition  => exact h.delByUser condition
  case freeQueue callBack            => exact h.freeAll callBack
  case freeShmQueue callBack         => exact h.freeAll callBack
  case setUseMax                     => exact ⟨_, rfl, { h with useMax := rfl }, rfl, rfl, rfl⟩
  case free                          => exact ⟨_, rfl, h.free ha, rfl, rfl, rfl⟩

theorem step (h : Represents s q) {op : Op α} {s' : Store α} (e : Step s op s') :
    Represents s' (spec op q).queue := by
  obtain ⟨ha, r, hr, rfl⟩ := e
  have ⟨r', hr', href⟩ := h.exec ha
  cases Option.some.inj (hr.symm.trans hr')
  exact href.represents

theorem run {s s' : Store α} {q : AbsQueue α} {tr : List (Store α × Op α)}
    (r : Run Step s tr s') (h : Represents s q) :
    Represents s' (specRun (Run.labels tr) q) := by
  induction r generalizing q
  case refl        => exact h
  case step e _ hi => exact hi (h.step e)

theorem zero (nodes : Addr → Option (NodeCommon α)) (blocks : Addr → Bool) :
    Represents ⟨nodes, blocks, {}⟩ {} :=
  ⟨rfl, rfl, rfl, rfl⟩

theorem wellFormed (h : Represents s q) : WellFormed s q.nodes where
  head_iff := by simp [h.head, h.tail]
  tail_iff := by simp [h.tail, h.len]
  visits   := h.seg
  count    := h.len
  distinct := h.nodup
  last a hm := by
    have ht := h.tail
    have hs := h.seg
    rcases List.eq_nil_or_concat' q.nodes with hn | ⟨xs, ⟨b, d⟩, hn⟩
    case inl => simp [ht, hn] at hm
    case inr =>
      simp only [ht, hn, List.map_append, List.map_cons, List.map_nil, List.getLast?_append,
        List.getLast?_singleton, Option.some_or, Option.mem_some_iff] at hm
      subst hm
      rw [hn] at hs
      simp [hn, (Segment.snoc_iff.mp hs).right]

end Represents

theorem put_unchanged {s : Store α} (full : Int → Int) {new : NodeData α} {max : Int}
    {malloc : Ptr} {r : Result α} (h : ¬(s.queue.queLen < max ∧ malloc ≠ none))
    (hr : put full new max malloc s = some r) : r.store = s := by
  simp only [put] at hr
  by_cases hl : s.queue.queLen < max
  case neg =>
    rw [if_neg hl] at hr
    cases hr
    rfl
  case pos =>
    have hm : malloc = none := by simpa [hl] using h
    rw [if_pos hl, hm] at hr
    cases hr
    rfl

-- After any run of calls on a zeroed queue the pointers spell out the list that the
-- specification has computed. Every further call goes through, without its exception branch and
-- with the result the specification gives it, and one that does not append leaves everything
-- as it is.
theorem queue_refines_spec {nodes : Addr → Option (NodeCommon α)} {blocks : Addr → Bool}
    {tr : List (Store α × Op α)} {s : Store α} (r : Run Step ⟨nodes, blocks, {}⟩ tr s) :
    WellFormed s (specRun (Run.labels tr) {}).nodes ∧
    (∀ op, Allowed s op →
      ∃ r, exec op s = some r ∧ Refines r (spec op (specRun (Run.labels tr) {}))) ∧
    (∀ new max malloc r, ¬(s.queue.queLen < max ∧ malloc ≠ none) →
      exec (.putToQueue new max malloc) s = some r ∨
      exec (.putToShmQueue new max malloc) s = some r → r.store = s) := by
  have h := (Represents.zero nodes blocks).run r
  refine ⟨h.wellFormed, fun _ ha => h.exec ha, fun _ _ _ _ hn hr => ?_⟩
  rcases hr with hr | hr
  · exact put_unchanged id hn hr
  · exact put_unchanged (fun _ => -1) hn hr

-- Two nodes are put and the first is taken by its only user.
theorem queue_refines_spec_witness :
    ∃ tr s, Run Step (⟨fun _ => none, fun _ => false, {}⟩ : Store Nat) tr s ∧
      tr.length = 3 ∧ WellFormed s [(2, { name := 20 })] := by
  let first (x : Addr × NodeData Nat) : Int := if x.2.name = 10 then 1 else 0
  obtain ⟨tr, s, r, ho⟩ : ∃ tr s, Run Step (⟨fun _ => none, fun _ => false, {}⟩ : Store Nat) tr s ∧
      Run.labels tr = [.putToQueue { name := 10 } 5 (some 1),
        .putToShmQueue { name := 20 } 5 (some 2), .delFromQueueByUser first] := by
    refine ⟨_, _, .step (i := .putToQueue _ _ _) ⟨?_, _, rfl, rfl⟩
      (.step (i := .putToShmQueue _ _ _) ⟨?_, _, rfl, rfl⟩
        (.single (i := .delFromQueueByUser _) ⟨?_, _, rfl, rfl⟩)), rfl⟩ <;> simp [Allowed]
  have h := (queue_refines_spec r).left
  rw [ho] at h
  exact ⟨tr, s, r, by simpa [Run.labels] using congrArg List.length ho, h⟩

end Share
