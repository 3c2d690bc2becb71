import Aiotc.Share.Owned
import Aiotc.Slab.Heap

-- The queues of share.cpp in a pool of ncx_slab.c. Where `Pooled` leaves open which block an
-- allocation has, here it is the one that the allocator gives out.

open Share Tiling

namespace Slab

variable {α β : Type}

-- The blocks `m` are those of the book.
def Holds (start : ℕ) (b : Book) (m : Blocks Addr β) : Prop :=
  ∀ a, m a ≠ none ↔ ∃ n, b.Live start a n

-- Several blocks are given back one after another.
def freeAll (ks : List Addr) (p : SlabPool) : Option SlabPool :=
  ks.foldlM (fun p a => freeLocked a p) p

section Refines

variable {p : SlabPool} {v : View} {m : Blocks Addr β} {a : Addr}

namespace Inv

-- What is asked for is not in use, as `Blocks.malloc` has it.
theorem malloc_refines (h : Inv p v) (hm : Holds p.start v.book m) (size : ℕ) (b : β) :
    ∃ res p' v' m', allocLocked size p = some (res, p') ∧ Blocks.malloc res b m = some m' ∧
      Inv p' v' ∧ Holds p'.start v'.book m' := by
  have ⟨res, p', hp, hpost⟩ := h.alloc_spec size
  cases res
  case none =>
    obtain ⟨rfl, -⟩ := hpost
    exact ⟨none, p', v, m, hp, rfl, h, hm⟩
  case some a =>
    have ⟨_, v', hg⟩ := hpost
    have hnone : m a = none := by
      by_contra hc
      have ⟨n, hl⟩ := (hm a).mp hc
      exact hg.fresh n hl
    refine ⟨some a, p', v', _, hp, Blocks.malloc_some_iff.mpr ⟨hnone, rfl⟩, hg.inv, fun c => ?_⟩
    rw [hg.steady.start]
    by_cases hc : c = a
    case pos =>
      subst hc
      simp only [Function.update_self, ne_eq, reduceCtorEq, not_false_eq_true, true_iff]
      exact ⟨_, (hg.live ..).mpr (.inr ⟨rfl, rfl⟩)⟩
    case neg =>
      rw [Function.update_of_ne hc, hm]
      exact exists_congr fun n => by rw [hg.live]; simp [hc]

theorem free_refines (h : Inv p v) (hm : Holds p.start v.book m) (ha : m a ≠ none) :
    ∃ p' v', freeLocked a p = some p' ∧ Inv p' v' ∧ Holds p'.start v'.book (Blocks.free a m) := by
  have ⟨n, hl⟩ := (hm a).mp ha
  have ⟨p', v', hp, ht⟩ := h.free_live hl
  refine ⟨p', v', hp, ht.inv, fun c => ?_⟩
  rw [ht.steady.start]
  by_cases hc : c = a
  case pos => simp [Blocks.free, hc, ht.live]
  case neg =>
    rw [Blocks.free, Function.update_of_ne hc, hm]
    exact exists_congr fun n => by rw [ht.live]; simp [hc]

theorem freeAll_refines (h : Inv p v) (hm : Holds p.start v.book m) {ks : List Addr}
    (hd : ks.Nodup) (hk : ∀ a ∈ ks, m a ≠ none) :
    ∃ p' v', freeAll ks p = some p' ∧ Inv p' v' ∧
      Holds p'.start v'.book (Blocks.freeAll ks m) := by
  induction ks generalizing p v m
  case nil => exact ⟨p, v, rfl, h, hm⟩
  case cons a ks hi =>
    obtain ⟨hn, hd⟩ := List.nodup_cons.mp hd
    obtain ⟨p₁, v₁, hp, h₁, hm₁⟩ := h.free_refines hm (hk a List.mem_cons_self)
    have hk : ∀ c ∈ ks, Blocks.free a m c ≠ none := by
      intro c hc
      have hca : c ≠ a := by
        rintro rfl
        exact hn hc
      rw [Blocks.free, Function.update_of_ne hca]
      exact hk c (List.mem_cons_of_mem _ hc)
    obtain ⟨p', v', hp', h', hm'⟩ := hi h₁ hm₁ hd hk
    refine ⟨p', v', ?_, h', hm'⟩
    rw [freeAll, List.foldlM_cons, hp]
    exact hp'

end Inv

end Refines

-- sizeof(node_common)
def sizeofNode : ℕ := 280

-- A queue and the pool that it is in.
structure ShmQueue (α : Type) where
  queue : AbsQueue α := {}
  pool : SlabPool

namespace ShmQueue

def putToShmQueue (new : NodeData α) (max : Int) (s : ShmQueue α) : Option (Int × ShmQueue α) :=
  if s.queue.nodes.length < max then do
    let (node, pool) ← allocLocked sizeofNode s.pool
    let s := { s with pool := pool }
    match node with
    | none   => return (-1, s)
    | some a => return (0, { s with queue.nodes := s.queue.nodes ++ [(a, new)] })
  else
    some (-1, s)

-- The part that `copyToShm`, `copyToMqQueue` and `addSlave` have in common
def putOwned (size : ℕ) (new : Addr → NodeData α) (max : Int) (s : ShmQueue α) :
    Option (Int × ShmQueue α) := do
  let (ptr, pool) ← allocLocked size s.pool
  let s := { s with pool := pool }
  match ptr with
  | none   => return (-1, s)
  | some p =>
    let (ret, s) ← putToShmQueue (new p) max s
    if ret ≠ 0 then
      return (ret, { s with pool := ← freeLocked p s.pool })
    else
      return (ret, s)

-- `callBack` frees what the `name` of a node refers to.
def owned (callBack : NodeData α → List Addr) (x : Addr × NodeData α) : List Addr :=
  callBack x.2 ++ x.2.arg.toList ++ [x.1]

def freeShmQueue (callBack : NodeData α → List Addr) (s : ShmQueue α) : Option (ShmQueue α) := do
  let pool ← freeAll (s.queue.nodes.flatMap (owned callBack)) s.pool
  return { queue := { s.queue with nodes := [] }, pool := pool }

section

variable {s s' : ShmQueue α} {v : View} {m : Blocks Addr (Chunk β)} {max : Int}

theorem putToShmQueue_refines (h : Inv s.pool v) (hm : Holds s.pool.start v.book m)
    (new : NodeData α) (max : Int) :
    ∃ ret s' v' node m', putToShmQueue new max s = some (ret, s') ∧
      Pooled.putToShmQueue new max node ⟨s.queue, m⟩ = some (ret, ⟨s'.queue, m'⟩) ∧
      Inv s'.pool v' ∧ Holds s'.pool.start v'.book m' := by
  by_cases hl : s.queue.nodes.length < max
  case neg =>
    exact ⟨-1, s, v, none, m, if_neg hl, if_neg hl, h, hm⟩
  case pos =>
    have ⟨node, pool, v', m', hp, hb, h', hm'⟩ := h.malloc_refines hm sizeofNode Chunk.node
    cases node
    case none =>
      cases hb
      exact ⟨-1, { s with pool := pool }, v', none, m, by simp [putToShmQueue, hl, hp],
        by simp [Pooled.putToShmQueue, hl, Blocks.malloc], h', hm'⟩
    case some a =>
      refine ⟨0, { s with queue.nodes := s.queue.nodes ++ [(a, new)], pool := pool }, v', some a,
        m', by simp [putToShmQueue, hl, hp], ?_, h', hm'⟩
      simp [Pooled.putToShmQueue, hl, hb]

-- The common part does what it does over any pool whose allocations are outcomes of this one.
theorem putOwned_refines (h : Inv s.pool v) (hm : Holds s.pool.start v.book m) (size : ℕ) (b : β)
    (new : Addr → NodeData α) (max : Int) :
    ∃ ret s' v' ptr node m', putOwned size new max s = some (ret, s') ∧
      Pooled.putOwned b new max ptr node ⟨s.queue, m⟩ = some (ret, ⟨s'.queue, m'⟩) ∧
      Inv s'.pool v' ∧ Holds s'.pool.start v'.book m' := by
  obtain ⟨ptr, pool, v₁, m₁, hp, hb, h₁, hm₁⟩ := h.malloc_refines hm size (Chunk.data b)
  cases ptr
  case none =>
    cases hb
    exact ⟨-1, { s with pool := pool }, v₁, none, none, m, by simp [putOwned, hp],
      by simp [Pooled.putOwned, Blocks.malloc], h₁, hm₁⟩
  case some p =>
    obtain ⟨ret, s₂, v₂, node, m₂, hp₂, hb₂, h₂, hm₂⟩ :=
      putToShmQueue_refines (s := { s with pool := pool }) h₁ hm₁ (new p) max
    by_cases hret : ret = 0
    case pos =>
      refine ⟨ret, s₂, v₂, some p, node, m₂, by simp [putOwned, hp, hp₂, hret], ?_, h₂, hm₂⟩
      simp only [Pooled.putOwned, hb, hb₂, bind, Option.bind_some, hret, ne_eq, not_true,
        if_false]
      rfl
    case neg =>
      -- The node was not queued, and the block is still there to be freed.
      have hheld : m₂ p ≠ none := by
        rcases Pooled.putToShmQueue_cases hb₂ with ⟨_, hc, _⟩ | ⟨_, _, hs⟩
        · exact absurd hc hret
        · have hm : m₂ = m₁ := congrArg Pooled.blocks hs
          obtain ⟨_, hu⟩ := Blocks.malloc_some_iff.mp hb
          rw [hm, ← hu, Function.update_self]
          simp
      obtain ⟨pool', v₃, hp₃, h₃, hm₃⟩ := h₂.free_refines hm₂ hheld
      refine ⟨ret, { s₂ with pool := pool' }, v₃, some p, node, Blocks.free p m₂, ?_, ?_, h₃, hm₃⟩
      · simp [putOwned, hp, hp₂, hret, hp₃]
      · simp only [Pooled.putOwned, hb, hb₂, bind, Option.bind_some, ne_eq, hret, not_false_eq_true,
          if_true]
        rfl

theorem putOwned_refines_sixteenK :
    ∃ ret s' ptr node m', putOwned 100 (fun p => { name := (), arg := some p }) 10
        { pool := sixteenK } = some (ret, s') ∧
      Pooled.putOwned () (fun p => { name := (), arg := some p }) 10 ptr node
        ⟨{}, fun _ => none⟩ = some (ret, ⟨s'.queue, m'⟩) := by
  have ⟨v, hk⟩ := Heap.keeps_fresh
  have hm : Holds sixteenK.start v.book (fun _ => none : Blocks Addr (Chunk Unit)) := by
    refine fun a => ⟨fun hc => absurd rfl hc, fun ⟨n, hl⟩ => absurd rfl (hk.live a n hl)⟩
  have ⟨ret, s', _, ptr, node, m', hs, hb, _⟩ := putOwned_refines (s := { pool := sixteenK })
    hk.inv hm 100 () (fun p => { name := (), arg := some p }) 10
  exact ⟨ret, s', ptr, node, m', hs, hb⟩

end

-- What the processes do with a queue.
inductive Op (α : Type)
  | put (size : ℕ) (new : Addr → NodeData α) (max : Int)
  | clear

def step (callBack : NodeData α → List Addr) (s : ShmQueue α) : Op α → Option (ShmQueue α)
  | .put size new max => (putOwned size new max s).map Prod.snd
  | .clear            => freeShmQueue callBack s

-- What is queued refers to the block that was allocated for it, and to no other.
def Op.Owns (callBack : NodeData α → List Addr) : Op α → Prop
  | .put _ new _ => ∀ p, callBack (new p) ++ (new p).arg.toList = [p]
  | .clear       => True

-- The blocks of the queue
def blocks (callBack : NodeData α → List Addr) (s : ShmQueue α) : List Addr :=
  s.queue.nodes.flatMap (owned callBack)

-- The pool has the blocks of the queue, each once, in addition to those of `m₀`.
structure Keeps (callBack : NodeData α → List Addr) (m₀ : Blocks Addr (Chunk β)) (s : ShmQueue α)
    (v : View) : Prop where
  inv   : Inv s.pool v
  gains : ∃ m ks, Holds s.pool.start v.book m ∧ Blocks.Gains ks m₀ m ∧
    (ks.map Prod.fst).Perm (s.blocks callBack)

section

variable {s s' : ShmQueue α} {v : View} {m₀ : Blocks Addr (Chunk β)} {op : Op α}
  {callBack : NodeData α → List Addr}

theorem Keeps.put [Inhabited β] (h : Keeps callBack m₀ s v) (size : ℕ) {new : Addr → NodeData α}
    (max : Int) (ho : ∀ p, callBack (new p) ++ (new p).arg.toList = [p]) :
    ∃ ret s' v', putOwned size new max s = some (ret, s') ∧ Keeps callBack m₀ s' v' := by
  have ⟨m, ks, hm, hg, hp⟩ := h.gains
  have ⟨ret, s', v', ptr, node, m', hs, hb, h', hm'⟩ :=
    putOwned_refines h.inv hm size default new max
  refine ⟨ret, s', v', hs, h', ?_⟩
  rcases Pooled.putOwned_cases hb with ⟨-, p, -, a, hq, hg'⟩ | ⟨-, he⟩
  case inl =>
    refine ⟨m', _, hm', hg.trans hg', ?_⟩
    have hq : s'.queue.nodes = s.queue.nodes ++ [(a, new p)] := congrArg AbsQueue.nodes hq
    simp only [List.map_append, blocks, hq, List.flatMap_append, List.flatMap_singleton, owned, ho]
    refine (List.perm_append_comm.trans (hp.append ?_))
    exact .swap ..
  case inr =>
    have hq : s'.queue = s.queue := congrArg Pooled.queue he
    have hmm : m' = m := congrArg Pooled.blocks he
    rw [hmm] at hm'
    rw [blocks] at hp ⊢
    exact ⟨m, ks, hm', hg, hq ▸ hp⟩

theorem Keeps.clear (h : Keeps callBack m₀ s v) :
    ∃ s' v', freeShmQueue callBack s = some s' ∧ Keeps callBack m₀ s' v' := by
  have ⟨m, ks, hm, hg, hp⟩ := h.gains
  have hheld : ∀ a ∈ s.blocks callBack, m a ≠ none := by
    intro a ha
    have ⟨x, hx, he⟩ := List.mem_map.mp (hp.mem_iff.mpr ha)
    rw [← he, hg.held x hx]
    simp
  have ⟨pool, v', hf, h', hm'⟩ := h.inv.freeAll_refines hm (hp.nodup_iff.mp hg.nodup) hheld
  rw [hg.freeAll fun a => hp.mem_iff.symm] at hm'
  refine ⟨{ s with queue.nodes := [], pool := pool }, v', ?_, h', m₀, [], hm', .nil m₀, .refl _⟩
  rw [blocks] at hf
  simp only [freeShmQueue, hf, bind, Option.bind_some]
  rfl

theorem Keeps.step [Inhabited β] (h : Keeps callBack m₀ s v) (ho : op.Owns callBack) :
    ∃ s' v', step callBack s op = some s' ∧ Keeps callBack m₀ s' v' := by
  cases op
  case put size new max =>
    have ⟨ret, s', v', hs, h'⟩ := h.put size max ho
    exact ⟨s', v', by simp [ShmQueue.step, hs], h'⟩
  case clear => exact h.clear

theorem Keeps.run [Inhabited β] (h : Keeps callBack m₀ s v) {ops : List (Op α)}
    (ho : ∀ op ∈ ops, op.Owns callBack) :
    ∃ s' v', ops.foldlM (ShmQueue.step callBack) s = some s' ∧ Keeps callBack m₀ s' v' := by
  induction ops generalizing s v
  case nil => exact ⟨s, v, rfl, h⟩
  case cons op ops hi =>
    have ⟨s₁, v₁, hs, h₁⟩ := h.step (ho op List.mem_cons_self)
    have ⟨s', v', hs', h'⟩ := hi h₁ fun op hop => ho op (List.mem_cons_of_mem _ hop)
    exact ⟨s', v', by rw [List.foldlM_cons, hs]; exact hs', h'⟩

open Classical in
-- Whatever is put into a queue and however often it is cleared, the allocator is never led astray,
-- and the pool has exactly the blocks of the queue more than it had.
theorem run_spec (h : Inv s.pool v) (hq : s.queue.nodes = []) {ops : List (Op α)}
    (ho : ∀ op ∈ ops, op.Owns callBack) :
    ∃ s' v', ops.foldlM (step callBack) s = some s' ∧ Inv s'.pool v' ∧
      (s'.blocks callBack).Nodup ∧
      (∀ a ∈ s'.blocks callBack, ∀ n, ¬v.book.Live s.pool.start a n) ∧
      ∀ a, (∃ n, v'.book.Live s'.pool.start a n) ↔
        a ∈ s'.blocks callBack ∨ ∃ n, v.book.Live s.pool.start a n := by
  have ⟨m₀, hm₀⟩ : ∃ m₀ : Blocks Addr (Chunk Unit), Holds s.pool.start v.book m₀ := by
    refine ⟨fun a => if ∃ n, v.book.Live s.pool.start a n then some .node else none, fun a => ?_⟩
    simp
  have hk : Keeps callBack m₀ s v := by
    refine ⟨h, m₀, [], hm₀, .nil m₀, ?_⟩
    simp [blocks, hq]
  have ⟨s', v', hs, hk'⟩ := hk.run ho
  have ⟨m, ks, hm, hg, hp⟩ := hk'.gains
  have hnone (a : Addr) (ha : a ∈ s'.blocks callBack) : m₀ a = none ∧ m a ≠ none := by
    have ⟨x, hx, he⟩ := List.mem_map.mp (hp.mem_iff.mpr ha)
    rw [← he, hg.fresh x hx, hg.held x hx]
    simp
  refine ⟨s', v', hs, hk'.inv, hp.nodup_iff.mp hg.nodup, fun a ha n hl => ?_, fun a => ?_⟩
  · exact (hm₀ a).mpr ⟨n, hl⟩ (hnone a ha).left
  · rw [← hm a, ← hm₀ a]
    by_cases ha : a ∈ s'.blocks callBack
    case pos => simp [ha, (hnone a ha).right]
    case neg => rw [hg.frame a fun hc => ha (hp.mem_iff.mp hc)]; simp [ha]

-- Two messages are queued, and the queue is cleared.
def putTwice : List (Op Unit) :=
  let put := .put 100 (fun p => { name := (), arg := some p }) 10
  [put, put, .clear]

theorem run_spec_sixteenK :
    ∃ s' : ShmQueue Unit, putTwice.foldlM (step fun _ => []) { pool := sixteenK } = some s' := by
  have hinv := init_inv (fun _ => zeroPage) (fun _ => 0) enough_sixteenK (by decide)
  have ho : ∀ op ∈ putTwice, op.Owns fun _ => [] := by
    simp [putTwice, Op.Owns]
  have ⟨s', _, hs, _⟩ := run_spec (s := { pool := sixteenK }) hinv rfl ho
  exact ⟨s', hs⟩

end

end ShmQueue

end Slab
