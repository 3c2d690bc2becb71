import Mathlib.Data.Option.Basic

-- Functions that end early, by a `goto` to their end, in the state that they have come to.

namespace Goto

variable {σ : Type*} {τ α : Type} {P : τ → Prop} {Q : σ → Prop}

def orEnd (ok : Bool) (s : σ) : Except σ Unit :=
  if ok then pure () else throw s

def notNull (p : Option α) (s : σ) : Except σ α :=
  match p with
  | some a => pure a
  | none   => throw s

-- Where it comes to its end `P` holds, and where it leaves early `Q` does.
def Ends (P : τ → Prop) (Q : σ → Prop) : Except σ τ → Prop
  | .ok s    => P s
  | .error s => Q s

theorem ends_pure {s : τ} : Ends P Q (pure s : Except σ τ) ↔ P s :=
  Iff.rfl

theorem Ends.mono {P' : τ → Prop} {Q' : σ → Prop} {x : Except σ τ} (h : Ends P Q x)
    (hp : ∀ s, P s → P' s) (hq : ∀ s, Q s → Q' s) : Ends P' Q' x := by
  cases x
  case ok s    => exact hp s h
  case error s => exact hq s h

theorem Ends.bind {x : Except σ α} {f : α → Except σ τ} {A : α → Prop} (h : Ends A Q x)
    (hf : ∀ a, A a → Ends P Q (f a)) : Ends P Q (x >>= f) := by
  cases x
  case ok a    => exact hf a h
  case error s => exact h

theorem ends_orEnd {ok : Bool} {s : σ} {f : Unit → Except σ τ} :
    Ends P Q (orEnd ok s >>= f) ↔ (ok = true → Ends P Q (f ())) ∧ (ok = false → Q s) := by
  cases ok
  case false => exact ⟨fun h => ⟨nofun, fun _ => h⟩, fun h => h.right rfl⟩
  case true  => exact ⟨fun h => ⟨fun _ => h, nofun⟩, fun h => h.left rfl⟩

theorem ends_notNull {p : Option α} {s : σ} {f : α → Except σ τ} :
    Ends P Q (notNull p s >>= f) ↔ (∀ a, p = some a → Ends P Q (f a)) ∧ (p = none → Q s) := by
  cases p
  case none   => exact ⟨fun h => ⟨nofun, fun _ => h⟩, fun h => h.right rfl⟩
  case some a =>
    refine ⟨fun h => ⟨?_, nofun⟩, fun h => h.left a rfl⟩
    rintro _ ⟨⟩
    exact h

end Goto
