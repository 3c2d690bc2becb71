import Mathlib.Data.Nat.Notation

-- Loops that are driven by a script: an iteration takes the next event and goes on or returns.

namespace Script

variable {ε σ ρ : Type*}

def run (step : ε → σ → σ ⊕ ρ) : (fuel : ℕ) → (ℕ → ε) → σ → Option ρ
  | 0, _, _           => none
  | fuel + 1, script, s =>
    match step (script 0) s with
    | .inl s => run step fuel (fun i => script (i + 1)) s
    | .inr r => some r

-- What an iteration does: it keeps `I` and makes `m` less, or it returns with `Q`.
def Does (I : σ → Prop) (m : σ → ℕ) (Q : ρ → Prop) (s : σ) : σ ⊕ ρ → Prop
  | .inl s' => I s' ∧ m s' < m s
  | .inr r  => Q r

-- `E` is what is known of the events.
theorem run_rule_of {step : ε → σ → σ ⊕ ρ} (E : ε → Prop) (I : σ → Prop) (m : σ → ℕ)
    (Q : ρ → Prop) (hs : ∀ e s, E e → I s → Does I m Q s (step e s)) {fuel : ℕ} {s : σ}
    {script : ℕ → ε} (he : ∀ n, E (script n)) (h : I s) (hm : m s < fuel) :
    ∃ r, run step fuel script s = some r ∧ Q r := by
  induction fuel generalizing script s
  case zero         => exact absurd hm (Nat.not_lt_zero _)
  case succ fuel hi =>
    have hd := hs (script 0) s (he 0) h
    rw [run]
    cases hr : step (script 0) s <;> rw [hr] at hd
    case inl s' =>
      exact hi (fun n => he (n + 1)) hd.left (Nat.lt_of_lt_of_le hd.right (Nat.le_of_lt_succ hm))
    case inr r  => exact ⟨r, rfl, hd⟩

theorem run_rule {step : ε → σ → σ ⊕ ρ} (I : σ → Prop) (m : σ → ℕ) (Q : ρ → Prop)
    (hs : ∀ e s, I s → Does I m Q s (step e s)) {fuel : ℕ} {s : σ} (script : ℕ → ε) (h : I s)
    (hm : m s < fuel) : ∃ r, run step fuel script s = some r ∧ Q r :=
  run_rule_of (fun _ => True) I m Q (fun e s _ => hs e s) (fun _ => trivial) h hm

end Script
