import Aiotc.Share.Refinement

-- `traverseQueue` of share.cpp. Its callbacks may delete the node that they are given, after the
-- loop has read where to go on.

open Heap

namespace Share

variable {α τ : Type}

-- A callback works on the memory of the queue and on what else `arg` leads to. `none` is a
-- dereference of NULL or of a pointer to no node.
abbrev NodeCallback (α τ : Type) := Addr → Store α → τ → Option (Int × Store α × τ)

-- Next to what is left: the nodes that `callBack` was called for.
def traverseLoop (callBack : NodeCallback α τ) :
    (fuel : Nat) → Ptr → Store α → τ → Option (List Addr × Store α × τ)
  | 0, _, _, _           => none
  | _ + 1, none, s, t    => some ([], s, t)
  | fuel + 1, some a, s, t => do
    let c ← s.nodes a
    let (ret, s, t) ← callBack a s t
    if ret ≠ 0 then
      return ([a], s, t)
    else
      let (visited, s, t) ← traverseLoop callBack fuel c.next s t
      return (a :: visited, s, t)

def traverseQueue (callBack : NodeCallback α τ) (s : Store α) (t : τ) :
    Option (List Addr × Store α × τ) :=
  traverseLoop callBack (fuel s) s.queue.head s t

-- What the nodes hold, wherever they are linked to.
def Store.data (s : Store α) (a : Addr) : Option (NodeData α) :=
  (s.nodes a).map Cell.data

section

variable {callBack : NodeCallback α τ} {s : Store α} {t : τ}

-- The rule for callbacks that go on. `I` relates the nodes that were visited and those that are
-- still to be visited to the state.
theorem traverseLoop_rule
    (I : List (Addr × NodeData α) → List (Addr × NodeData α) → Store α → τ → Prop)
    (step : ∀ us a d vs s t, I us ((a, d) :: vs) s t →
      ∃ s' t', s.nodes a = some ⟨d, (addrs vs).head?⟩ ∧ callBack a s t = some (0, s', t') ∧
        I (us ++ [(a, d)]) vs s' t')
    {us vs : List (Addr × NodeData α)} {n : Nat} (h : I us vs s t) (hn : vs.length < n) :
    ∃ s' t', traverseLoop callBack n (addrs vs).head? s t = some (addrs vs, s', t') ∧
      I (us ++ vs) [] s' t' := by
  induction vs generalizing us n s t <;> cases n <;> try simp at hn
  case nil.succ => exact ⟨s, t, rfl, by simpa using h⟩
  case cons.succ x vs hi n =>
    have ⟨s₁, t₁, hx, hc, h₁⟩ := step us x.1 x.2 vs s t h
    have ⟨s', t', hl, h'⟩ := hi h₁ hn
    refine ⟨s', t', ?_, by simpa using h'⟩
    simp only [List.map_cons, List.head?_cons, traverseLoop, hx, hc, hl, bind, pure,
      Option.bind_some, ne_eq, not_true, if_false]

theorem traverseQueue_rule {q : AbsQueue α}
    (I : List (Addr × NodeData α) → List (Addr × NodeData α) → Store α → τ → Prop)
    (step : ∀ us a d vs s t, I us ((a, d) :: vs) s t →
      ∃ s' t', s.nodes a = some ⟨d, (addrs vs).head?⟩ ∧ callBack a s t = some (0, s', t') ∧
        I (us ++ [(a, d)]) vs s' t')
    (hr : Represents s q) (h : I [] q.nodes s t) :
    ∃ s' t', traverseQueue callBack s t = some (addrs q.nodes, s', t') ∧ I q.nodes [] s' t' := by
  rw [traverseQueue, hr.head]
  exact traverseLoop_rule I step h (by simp [hr.fuel_eq])

end

namespace Represents

variable {s : Store α} {us vs : List (Addr × NodeData α)} {a : Addr} {d : NodeData α} {u : Int}

-- A node of the queue, with what its `next` is.
theorem nodes_eq (h : Represents s ⟨us ++ (a, d) :: vs, u⟩) :
    s.nodes a = some ⟨d, (addrs vs).head?⟩ := by
  have ⟨_, _, _, r, ha, hv⟩ := Segment.append_iff.mp h.seg
  rw [ha, hv.head_eq]

end Represents

section

variable {s : Store α} {r : Result α}

theorem data_setNext {nodes nodes' : Addr → Option (NodeCommon α)} {n p : Ptr}
    (h : setNext nodes n p = some nodes') (b : Addr) :
    (nodes' b).map Cell.data = (nodes b).map Cell.data := by
  simp only [setNext, bind, Option.bind_eq_some_iff, pure, Option.some.injEq] at h
  obtain ⟨a, -, c, hc, rfl⟩ := h
  by_cases hb : b = a
  case pos => simp [hb, hc]
  case neg => simp [hb]

-- Taking a node out of the queue changes links only.
theorem data_unlink {prev : Ptr} {a : Addr} {c : NodeCommon α} (h : unlink prev a c s = some r) :
    r.store.data = s.data := by
  simp only [unlink, bind, pure] at h
  split at h
  case isTrue =>
    simp only [Option.bind_some] at h
    split at h <;> cases h <;> rfl
  case isFalse =>
    split at h
    case isTrue =>
      simp only [Option.bind_some] at h
      split at h <;> cases h <;> rfl
    case isFalse =>
      split at h
      all_goals
        obtain ⟨nodes, hs, h⟩ := Option.bind_eq_some_iff.mp h
        simp only [Option.bind_some] at h
        split at h <;> cases h <;> exact funext (data_setNext hs)

theorem data_walk {condition : Addr × NodeData α → Int}
    {found : Ptr → Addr → NodeCommon α → Option (Result α)} {n : Nat} {prev p : Ptr}
    (hf : ∀ prev a c r, found prev a c = some r → r.store.data = s.data)
    (h : walk condition found s n prev p = some r) : r.store.data = s.data := by
  induction n generalizing prev p <;> cases p
  case zero.none => cases h
  case zero.some => cases h
  case succ.none =>
    cases h
    rfl
  case succ.some n hi a =>
    simp only [walk, bind, Option.bind_eq_some_iff] at h
    obtain ⟨c, -, h⟩ := h
    split at h
    case isTrue  => exact hf _ _ _ _ h
    case isFalse => exact hi h

theorem data_delFromQueue {condition : Addr × NodeData α → Int}
    (h : delFromQueue condition s = some r) : r.store.data = s.data :=
  data_walk (fun _ _ _ _ => data_unlink) h

end

end Share
