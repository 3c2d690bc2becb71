import Mathlib.Data.List.Basic
import Mathlib.Data.List.Count
import Mathlib.Data.List.Nodup
import Mathlib.Data.List.Perm.Subperm

-- A pool of keys that are handed out and given back in any order. It hands out the first of its
-- keys that is not held.

namespace Pool

variable {α : Type*} {keys held : List α} {k : α}

structure Valid (keys held : List α) : Prop where
  nodup : held.Nodup
  mem   : ∀ k ∈ held, k ∈ keys

theorem Valid.length_le (h : Valid keys held) : held.length ≤ keys.length :=
  (List.subperm_of_subset h.nodup h.mem).length_le

theorem Valid.perm {held' : List α} (h : Valid keys held) (hp : held.Perm held') :
    Valid keys held' where
  nodup   := hp.nodup_iff.mp h.nodup
  mem _ m := h.mem _ (hp.mem_iff.mpr m)

variable [DecidableEq α]

def acquire (keys held : List α) : Option α :=
  keys.find? (· ∉ held)

theorem acquire_some (h : acquire keys held = some k) : k ∈ keys ∧ k ∉ held :=
  ⟨List.mem_of_find?_eq_some h, by simpa using List.find?_some h⟩

theorem acquire_eq_none_iff : acquire keys held = none ↔ ∀ k ∈ keys, k ∈ held := by
  simp [acquire]

-- What is held only matters as far as the keys of the pool are concerned.
theorem acquire_congr {held' : List α} (h : ∀ k ∈ keys, k ∈ held ↔ k ∈ held') :
    acquire keys held = acquire keys held' := by
  induction keys
  case nil => rfl
  case cons k keys hi =>
    have hk := h k List.mem_cons_self
    have hi := hi fun k hm => h k (List.mem_cons_of_mem _ hm)
    simp only [acquire, List.find?_cons, hk] at hi ⊢
    rw [hi]

namespace Valid

theorem acquire (h : Valid keys held) (ha : Pool.acquire keys held = some k) :
    Valid keys (held ++ [k]) := by
  have ⟨hk, hn⟩ := acquire_some ha
  constructor
  case nodup => exact List.nodup_append.mpr ⟨h.nodup, List.nodup_singleton k, by grind⟩
  case mem   => grind [h.mem]

theorem release (h : Valid keys held) : Valid keys (held.erase k) where
  nodup   := h.nodup.erase k
  mem _ m := h.mem _ (List.mem_of_mem_erase m)

-- The pool is empty exactly if as many keys are held as it has.
theorem acquire_eq_none_iff (h : Valid keys held) (hk : keys.Nodup) :
    Pool.acquire keys held = none ↔ held.length = keys.length := by
  rw [Pool.acquire_eq_none_iff]
  constructor
  case mp =>
    intro hm
    exact Nat.le_antisymm h.length_le (List.subperm_of_subset hk hm).length_le
  case mpr =>
    intro hl k hm
    have hp := (List.subperm_of_subset h.nodup h.mem).perm_of_length_le (Nat.le_of_eq hl.symm)
    exact hp.mem_iff.mpr hm

end Valid

-- What is held after so many keys were handed out.
def acquires (keys : List α) : ℕ → List α → List α
  | 0, held     => held
  | n + 1, held => acquires keys n (held ++ (acquire keys held).toList)

-- Each key is handed out in the end when none is given back.
theorem mem_acquires (hk : keys.Nodup) (h : Valid keys held) {n : ℕ}
    (hn : keys.length ≤ held.length + n) (hm : k ∈ keys) : k ∈ acquires keys n held := by
  induction n generalizing held
  case zero =>
    have hl := Nat.le_antisymm h.length_le hn
    exact acquire_eq_none_iff.mp ((h.acquire_eq_none_iff hk).mpr hl) k hm
  case succ n hi =>
    simp only [acquires]
    cases ha : acquire keys held
    case none =>
      have hl := (h.acquire_eq_none_iff hk).mp ha
      simpa using hi h (by omega)
    case some k' => exact hi (h.acquire ha) (by simp; omega)

end Pool
