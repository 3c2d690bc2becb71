import Mathlib.Data.List.Basic

-- Functions that read something off the front of a text, and the rules for lists of such things
-- with separators between them.

namespace Reader

-- What was found and the text behind it, or why nothing was. `fault` is an access outside of the
-- text, or outside of what the function writes to.
inductive Result (σ ε α : Type*)
  | ok (a : α) (rest : List σ)
  | error (e : ε)
  | fault
  deriving DecidableEq

variable {σ ε α β : Type*}

namespace Result

def bind (r : Result σ ε α) (f : α → List σ → Result σ ε β) : Result σ ε β :=
  match r with
  | ok a rest => f a rest
  | error e   => error e
  | fault     => fault

variable {r : Result σ ε α} {f : α → List σ → Result σ ε β} {a : α} {s : List σ} {e : ε}
  {P Q : α → List σ → Prop}

@[simp]
theorem ok_bind : (ok a s : Result σ ε α).bind f = f a s := rfl

@[simp]
theorem error_bind : (error e : Result σ ε α).bind f = error e := rfl

@[simp]
theorem fault_bind : (fault : Result σ ε α).bind f = fault := rfl

-- There is no fault, and `P` holds of what is found.
def Sound (P : α → List σ → Prop) : Result σ ε α → Prop
  | ok a rest => P a rest
  | error _   => True
  | fault     => False

@[simp]
theorem sound_ok : (ok a s : Result σ ε α).Sound P ↔ P a s := .rfl

@[simp]
theorem sound_error : (error e : Result σ ε α).Sound P := trivial

@[simp]
theorem not_sound_fault : ¬(fault : Result σ ε α).Sound P := id

theorem Sound.mono (h : r.Sound P) (hq : ∀ a s, P a s → Q a s) : r.Sound Q := by
  cases r
  case ok a s  => exact hq a s h
  case error e => trivial
  case fault   => exact h

theorem Sound.bind {R : β → List σ → Prop} (h : r.Sound P) (hf : ∀ a s, P a s → (f a s).Sound R) :
    (r.bind f).Sound R := by
  cases r
  case ok a s  => exact hf a s h
  case error e => trivial
  case fault   => exact h

end Result

open Result

section

variable [DecidableEq σ]

-- One item or more with `sep` between them and `stop` behind the last. There are at most `n`.
def sepBy (item : List σ → Result σ ε α) (sep stop : σ) (fail : List σ → ε) :
    ℕ → List σ → Result σ ε (List α)
  | 0, _     => .fault
  | n + 1, s =>
    (item s).bind fun a rest =>
      if rest.head? = some sep then
        (sepBy item sep stop fail n rest.tail).bind fun as rest => .ok (a :: as) rest
      else if rest.head? = some stop then
        .ok [a] rest.tail
      else
        .error (fail rest)

variable {item : List σ → Result σ ε α} {sep stop : σ} {fail : List σ → ε} {n : ℕ}
  {s t r : List σ} {a : α} {as : List α}

theorem sepBy_congr (h : item s = item t) :
    sepBy item sep stop fail n s = sepBy item sep stop fail n t := by
  cases n
  case zero   => rfl
  case succ n => rw [sepBy, sepBy, h]

theorem sepBy_last (hne : sep ≠ stop) (h : item s = .ok a (stop :: t)) :
    sepBy item sep stop fail (n + 1) s = .ok [a] t := by
  simp [sepBy, h, hne.symm]

theorem sepBy_cons (h : item s = .ok a (sep :: t)) (hs : sepBy item sep stop fail n t = .ok as r) :
    sepBy item sep stop fail (n + 1) s = .ok (a :: as) r := by
  simp [sepBy, h, hs]

-- Items are read off texts that have `I`, and what is left of such a text has it again.
theorem sepBy_sound {I : List σ → Prop} {P : α → Prop}
    (hitem : ∀ t, I t → t.length ≤ s.length →
      (item t).Sound fun a rest => P a ∧ I rest ∧ rest.length ≤ t.length)
    (hsep : ∀ t, I (sep :: t) → I t) (hstop : ∀ t, I (stop :: t) → I t) (h : I s)
    (hn : s.length < n) :
    (sepBy item sep stop fail n s).Sound fun as rest =>
      (∀ a ∈ as, P a) ∧ I rest ∧ rest.length < s.length := by
  induction n generalizing s
  case zero => exact absurd hn (Nat.not_lt_zero _)
  case succ n hi =>
    refine (hitem s h (Nat.le_refl _)).bind fun a rest ⟨ha, hr, hl⟩ => ?_
    match rest with
    | []     => simp
    | c :: t =>
      simp only [List.length_cons] at hl
      simp only [List.head?_cons, Option.some.injEq, List.tail_cons]
      split
      case isTrue hc =>
        subst hc
        have hit : ∀ u, I u → u.length ≤ t.length → _ := fun u hu hle => hitem u hu (by omega)
        refine (hi hit (hsep t hr) (by omega)).bind fun as rest ⟨has, hr, hl⟩ => ?_
        refine ⟨?_, hr, by omega⟩
        rintro b (_ | ⟨_, hb⟩)
        · exact ha
        · exact has b hb
      case isFalse =>
        split
        case isTrue hc =>
          subst hc
          exact ⟨by simpa using ha, hstop t hr, by omega⟩
        case isFalse => trivial

end

end Reader
