import Aiotc.Share.Refinement

-- The queues as the rest of the program uses them: lists of what the nodes hold in `name`.

namespace Queue

variable {α : Type}

def putToShmQueue (new : α) (max : Int) (malloc : Bool) (q : List α) : Int × List α :=
  if q.length < max then
    if malloc then (0, q ++ [new]) else (-1, q)
  else
    (-1, q)

def getFromQueue (q : List α) : Option α × List α :=
  (q.head?, q.tail)

def delFromQueue (condition : α → Bool) (q : List α) : List α :=
  q.eraseP condition

def searchFromQueue (condition : α → Bool) (q : List α) : Option α :=
  q.find? condition

-- What callers of `searchFromQueue` write through the pointer they get.
def modifyFound (condition : α → Bool) (f : α → α) : List α → List α
  | []      => []
  | x :: xs => if condition x then f x :: xs else x :: modifyFound condition f xs

section

variable {condition : α → Bool} {f : α → α} {q : List α} {x : α}

theorem putToShmQueue_of_room {max : Int} (h : q.length < max) :
    putToShmQueue x max true q = (0, q ++ [x]) := by
  simp [putToShmQueue, h]

theorem putToShmQueue_cases (x : α) (max : Int) (malloc : Bool) (q : List α) :
    ((q.length < max ∧ malloc = true) ∧ putToShmQueue x max malloc q = (0, q ++ [x])) ∨
    (¬(q.length < max ∧ malloc = true) ∧ putToShmQueue x max malloc q = (-1, q)) := by
  by_cases h : q.length < max <;> cases malloc <;> simp [putToShmQueue, h]

theorem map_modifyFound {β : Type*} {g : α → β} (h : ∀ x, g (f x) = g x) :
    (modifyFound condition f q).map g = q.map g := by
  induction q
  case nil => rfl
  case cons x q hi =>
    simp only [modifyFound]
    split <;> simp [h, hi]

theorem of_mem_modifyFound (h : x ∈ modifyFound condition f q) : x ∈ q ∨ ∃ y ∈ q, x = f y := by
  induction q
  case nil => simp [modifyFound] at h
  case cons y q hi =>
    simp only [modifyFound] at h
    split at h <;> cases List.mem_cons.mp h
    case isTrue.inl h  => exact .inr ⟨y, List.mem_cons_self, h⟩
    case isTrue.inr h  => exact .inl (List.mem_cons_of_mem _ h)
    case isFalse.inl h => exact .inl (h ▸ List.mem_cons_self)
    case isFalse.inr h =>
      cases hi h
      case inl h => exact .inl (List.mem_cons_of_mem _ h)
      case inr h =>
        have ⟨z, hz, he⟩ := h
        exact .inr ⟨z, List.mem_cons_of_mem _ hz, he⟩

-- Where at most one node meets the condition, all others are left alone.
theorem mem_modifyFound (hu : q.Pairwise fun x y => ¬(condition x ∧ condition y))
    (h : x ∈ modifyFound condition f q) :
    (x ∈ q ∧ ¬condition x) ∨ ∃ y, searchFromQueue condition q = some y ∧ x = f y := by
  induction q
  case nil => simp [modifyFound] at h
  case cons y q hi =>
    have ⟨hy, hu⟩ := List.pairwise_cons.mp hu
    simp only [modifyFound] at h
    by_cases hc : condition y
    case pos =>
      rw [if_pos hc] at h
      rcases List.mem_cons.mp h with rfl | h
      · exact .inr ⟨y, by simp [searchFromQueue, hc], rfl⟩
      · exact .inl ⟨List.mem_cons_of_mem _ h, fun hx => hy x h ⟨hc, hx⟩⟩
    case neg =>
      rw [if_neg hc] at h
      rcases List.mem_cons.mp h with rfl | h
      · exact .inl ⟨List.mem_cons_self, hc⟩
      · rcases hi hu h with ⟨h, hx⟩ | ⟨z, hs, rfl⟩
        · exact .inl ⟨List.mem_cons_of_mem _ h, hx⟩
        · exact .inr ⟨z, by simpa [searchFromQueue, hc] using hs, rfl⟩

theorem mem_delFromQueue (hu : q.Pairwise fun x y => ¬(condition x ∧ condition y))
    (h : x ∈ delFromQueue condition q) : x ∈ q ∧ ¬condition x := by
  induction q
  case nil => simp [delFromQueue] at h
  case cons y q hi =>
    have ⟨hy, hu⟩ := List.pairwise_cons.mp hu
    simp only [delFromQueue] at h hi
    by_cases hc : condition y
    case pos =>
      rw [List.eraseP_cons_of_pos hc] at h
      exact ⟨List.mem_cons_of_mem _ h, fun hx => hy x h ⟨hc, hx⟩⟩
    case neg =>
      rw [List.eraseP_cons_of_neg hc] at h
      rcases List.mem_cons.mp h with rfl | h
      · exact ⟨List.mem_cons_self, hc⟩
      · exact (hi hu h).imp_left (List.mem_cons_of_mem _)

theorem modifyFound_of_first {q₁ q₂ : List α} (hq : ∀ y ∈ q₁, ¬condition y) (hx : condition x) :
    modifyFound condition f (q₁ ++ x :: q₂) = q₁ ++ f x :: q₂ := by
  induction q₁
  case nil          => simp [modifyFound, hx]
  case cons y q₁ hi =>
    have ⟨hy, hq⟩ := List.forall_mem_cons.mp hq
    simp [modifyFound, hy, hi hq]

-- The first node that meets the condition is the one that is found and changed.
theorem modifyFound_cases (condition : α → Bool) (f : α → α) (q : List α) :
    (∃ q₁ x q₂, q = q₁ ++ x :: q₂ ∧ searchFromQueue condition q = some x ∧
      q.findIdx? condition = some q₁.length ∧ modifyFound condition f q = q₁ ++ f x :: q₂) ∨
    (searchFromQueue condition q = none ∧ q.findIdx? condition = none ∧
      modifyFound condition f q = q) := by
  induction q
  case nil => exact .inr ⟨rfl, rfl, rfl⟩
  case cons x q hi =>
    by_cases hx : condition x
    case pos =>
      refine .inl ⟨[], x, q, rfl, ?_⟩
      simp [searchFromQueue, modifyFound, List.findIdx?_cons, hx]
    case neg =>
      rcases hi with ⟨q₁, y, q₂, rfl, hs, hn, hm⟩ | ⟨hs, hn, hm⟩
      · refine .inl ⟨x :: q₁, y, q₂, rfl, ?_, ?_, ?_⟩
        · simpa [searchFromQueue, hx] using hs
        · simp [List.findIdx?_cons, hx, hn]
        · simp [modifyFound, hx, hm]
      · refine .inr ⟨?_, ?_, ?_⟩
        · simpa [searchFromQueue, hx] using hs
        · simp [List.findIdx?_cons, hx, hn]
        · simp [modifyFound, hx, hm]

-- The node that is deleted is the one that is found.
theorem delFromQueue_cases (condition : α → Bool) (q : List α) :
    (∃ q₁ x q₂, q = q₁ ++ x :: q₂ ∧ searchFromQueue condition q = some x ∧
      delFromQueue condition q = q₁ ++ q₂) ∨
    (searchFromQueue condition q = none ∧ delFromQueue condition q = q) := by
  induction q
  case nil => exact .inr ⟨rfl, rfl⟩
  case cons x q hi =>
    by_cases hx : condition x
    case pos =>
      exact .inl ⟨[], x, q, rfl, by simp [searchFromQueue, hx], by simp [delFromQueue, hx]⟩
    case neg =>
      rcases hi with ⟨q₁, y, q₂, rfl, hs, hd⟩ | ⟨hs, hd⟩
      · refine .inl ⟨x :: q₁, y, q₂, rfl, ?_, ?_⟩
        · simpa [searchFromQueue, hx] using hs
        · simpa [delFromQueue, hx] using hd
      · refine .inr ⟨?_, ?_⟩
        · simpa [searchFromQueue, hx] using hs
        · simpa [delFromQueue, hx] using hd

theorem searchFromQueue_append {ys : List α} (h : searchFromQueue condition q = some x) :
    searchFromQueue condition (q ++ ys) = some x := by
  simp only [searchFromQueue, List.find?_append] at h ⊢
  simp [h]

theorem searchFromQueue_snoc (h : searchFromQueue condition q = none) (hx : condition x) :
    searchFromQueue condition (q ++ [x]) = some x := by
  simp only [searchFromQueue, List.find?_append] at h ⊢
  simp [h, hx]

theorem searchFromQueue_some (h : searchFromQueue condition q = some x) :
    x ∈ q ∧ condition x :=
  ⟨List.mem_of_find?_eq_some h, List.find?_some h⟩

-- The node found is still the one that is found, and the only one that differs.
theorem searchFromQueue_modifyFound_self (condition : α → Bool) (f : α → α) (q : List α)
    (h : ∀ x, condition x → condition (f x)) :
    searchFromQueue condition (modifyFound condition f q) =
      (searchFromQueue condition q).map f := by
  induction q
  case nil => rfl
  case cons x q hi =>
    simp only [modifyFound]
    by_cases hx : condition x
    case pos => simp [searchFromQueue, hx, h x hx]
    case neg => simpa [searchFromQueue, hx] using hi

theorem searchFromQueue_mapM {g : α → Option α} {q' : List α}
    (hc : ∀ x y, g x = some y → condition y = condition x) (h : q.mapM g = some q')
    (hs : searchFromQueue condition q = some x) :
    ∃ y, g x = some y ∧ searchFromQueue condition q' = some y := by
  induction q generalizing q'
  case nil => cases hs
  case cons z q hi =>
    simp only [List.mapM_cons, bind, Option.bind_eq_some_iff, pure, Option.some.injEq] at h
    obtain ⟨y, hy, q', hq, rfl⟩ := h
    by_cases hz : condition z
    case pos =>
      have hx : z = x := by simpa [searchFromQueue, hz] using hs
      exact ⟨y, hx ▸ hy, by simp [searchFromQueue, hc z y hy, hz]⟩
    case neg =>
      have ⟨w, hw, hf⟩ := hi hq (by simpa [searchFromQueue, hz] using hs)
      exact ⟨w, hw, by simpa [searchFromQueue, hc z y hy, hz] using hf⟩

theorem searchFromQueue_modifyFound (condition c : α → Bool) (f : α → α) (q : List α)
    (h : ∀ x, c (f x) = c x) (hc : ∀ x ∈ q, condition x → c x = false) :
    searchFromQueue c (modifyFound condition f q) = searchFromQueue c q := by
  induction q
  case nil => rfl
  case cons x q hi =>
    simp only [modifyFound]
    by_cases hx : condition x
    case pos => simp [searchFromQueue, hx, h, hc x List.mem_cons_self]
    case neg =>
      have hi := hi fun y hy => hc y (List.mem_cons_of_mem _ hy)
      simp only [searchFromQueue] at hi
      simp [searchFromQueue, hx, List.find?_cons, hi]

end

end Queue

-- The list operations are those of the queue of nodes, seen through `name`.
namespace Share.AbsQueue

variable {α : Type}

def names (q : AbsQueue α) : List α :=
  q.nodes.map (·.2.name)

variable {q : AbsQueue α}

theorem names_putToShmQueue (new : NodeData α) (max : Int) (malloc : Ptr) :
    let r := spec (.putToShmQueue new max malloc) q
    (r.ret, r.queue.names) = Queue.putToShmQueue new.name max malloc.isSome q.names := by
  simp only [spec, put, Queue.putToShmQueue, names, List.length_map]
  split <;> cases malloc <;> simp

theorem names_getFromQueue :
    (spec .getFromQueue q).queue.names = (Queue.getFromQueue q.names).2 := by
  simp [spec, get, names, Queue.getFromQueue]

theorem names_delFromQueue (condition : α → Bool) :
    (spec (.delFromQueue fun x => if condition x.2.name then 1 else 0) q).queue.names =
      Queue.delFromQueue condition q.names := by
  simp [spec, del, names, Queue.delFromQueue, List.eraseP_map, Function.comp_def]

end Share.AbsQueue
