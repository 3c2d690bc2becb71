import Mathlib.Logic.Function.Basic
import Mathlib.Logic.Relation

-- Binary locks: who owns them, and cycles of threads that wait for each other. The threads `τ` tell
-- by their positions which locks `κ` they hold, the last one first, and for which one they wait.

namespace Locks

section

variable {τ κ : Type*} {owner owner' : κ → Option τ} {held held' : τ → List κ} {t : τ} {k : κ}

-- A lock is owned by the thread that holds it, and by no thread if there is none.
structure Owned (owner : κ → Option τ) (held : τ → List κ) : Prop where
  iff : ∀ t k, owner k = some t ↔ k ∈ held t

-- What a thread does with the locks in one step.
inductive Move [DecidableEq κ] (owner : κ → Option τ) (t : τ) :
    List κ → (κ → Option τ) → List κ → Prop
  | stay {ks} : Move owner t ks owner ks
  | wait {ks k} : owner k = none → Move owner t ks (Function.update owner k (some t)) (k :: ks)
  | post {ks k} : k ∉ ks → Move owner t (k :: ks) (Function.update owner k none) ks

namespace Owned

theorem init (hn : ∀ t, held t = []) : Owned (fun _ => none) held where
  iff t k := by simp [hn]

variable [DecidableEq κ]

theorem move (h : Owned owner held) (hm : Move owner t (held t) owner' (held' t))
    (ho : ∀ t', t' ≠ t → held' t' = held t') : Owned owner' held' where
  iff t' k' := by
    generalize hks : held t = ks at hm
    generalize hks' : held' t = ks' at hm
    cases hm
    case stay =>
      rcases eq_or_ne t' t with rfl | ht
      · rw [hks', h.iff, hks]
      · rw [ho t' ht, h.iff]
    case wait k hf =>
      have hn : ∀ u, k ∉ held u := fun u => by simp [← h.iff, hf]
      rcases eq_or_ne k' k with rfl | hk <;> rcases eq_or_ne t' t with rfl | ht
      · simp [hks']
      · simp [ho t' ht, hn, Ne.symm ht]
      · simp [hks', hk, h.iff, hks]
      · simp [ho t' ht, hk, h.iff]
    case post k hk' =>
      have hu : ∀ u, k ∈ held u → u = t := fun u hu =>
        Option.some.inj (((h.iff u k).mpr hu).symm.trans ((h.iff t k).mpr (by simp [hks])))
      rcases eq_or_ne k' k with rfl | hk <;> rcases eq_or_ne t' t with rfl | ht
      · simpa [hks'] using hk'
      · simpa [ho t' ht] using fun h => ht (hu t' h)
      · simp [hks', hk, h.iff, hks]
      · simp [ho t' ht, hk, h.iff]

end Owned

end

variable {τ κ : Type*} {owner : κ → Option τ} {waits : τ → κ → Prop} {t t' : τ} {k k' : κ}

-- The edges of the wait-for graph.
def WaitsFor (owner : κ → Option τ) (waits : τ → κ → Prop) (t t' : τ) : Prop :=
  ∃ k, waits t k ∧ owner k = some t'

def Deadlock (owner : κ → Option τ) (waits : τ → κ → Prop) : Prop :=
  ∃ t, Relation.TransGen (WaitsFor owner waits) t t

-- Two threads each of which owns the lock that the other one waits for.
theorem Deadlock.of_pair (t t' : τ) (k k' : κ) (h : waits t k) (ho : owner k = some t')
    (h' : waits t' k') (ho' : owner k' = some t) : Deadlock owner waits :=
  ⟨t, .tail (.single ⟨k, h, ho⟩) ⟨k', h', ho'⟩⟩

-- Where a thread only waits for locks that rank above those that it owns, locks rise along a path,
-- so that there is no cycle.
theorem rank_le_of_path {rank : κ → Nat}
    (hr : ∀ t k k', owner k = some t → waits t k' → rank k < rank k')
    (h : Relation.TransGen (WaitsFor owner waits) t t') :
    ∃ k k', waits t k ∧ owner k' = some t' ∧ rank k ≤ rank k' := by
  induction h
  case single e =>
    have ⟨k, hw, ho⟩ := e
    exact ⟨k, k, hw, ho, Nat.le_refl _⟩
  case tail e hi =>
    have ⟨l, hl, hlo⟩ := e
    have ⟨k, k', hw, ho, hk⟩ := hi
    exact ⟨k, l, hw, hlo, Nat.le_trans hk (Nat.le_of_lt (hr _ _ _ ho hl))⟩

theorem not_deadlock_of_rank (rank : κ → Nat)
    (hr : ∀ t k k', owner k = some t → waits t k' → rank k < rank k') :
    ¬Deadlock owner waits := by
  rintro ⟨t, h⟩
  have ⟨k, k', hw, ho, hk⟩ := rank_le_of_path hr h
  exact absurd (hr t k' k ho hw) (Nat.not_lt.mpr hk)

end Locks
