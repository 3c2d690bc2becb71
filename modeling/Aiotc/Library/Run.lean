import Mathlib.Data.List.Basic

-- Runs of a labelled transition relation. A run is listed by its steps, each with the state it
-- was taken in, so that a run can be asked about its states (`Always`) as well as about the
-- conditions under which its steps were taken (`Meets`).

inductive Run {σ ι : Type*} (step : σ → ι → σ → Prop) : σ → List (σ × ι) → σ → Prop
  | refl {s} : Run step s [] s
  | step {s₁ s₂ s₃ i tr} : step s₁ i s₂ → Run step s₂ tr s₃ → Run step s₁ ((s₁, i) :: tr) s₃

namespace Run

variable {σ ι : Type*} {step : σ → ι → σ → Prop} {s s₁ s₂ s₃ : σ} {i : ι} {tr tr' : List (σ × ι)}

def Always (P : σ → Prop) (tr : List (σ × ι)) (s : σ) : Prop :=
  (∀ x ∈ tr, P x.1) ∧ P s

def Meets (C : σ → ι → Prop) (tr : List (σ × ι)) : Prop :=
  ∀ x ∈ tr, C x.1 x.2

instance {C : σ → ι → Prop} [∀ s i, Decidable (C s i)] : Decidable (Meets C tr) :=
  inferInstanceAs (Decidable (∀ x ∈ tr, C x.1 x.2))

def labels (tr : List (σ × ι)) : List ι :=
  tr.map Prod.snd

section

variable {P : σ → Prop} {C : σ → ι → Prop}

@[simp]
theorem always_nil : Always P ([] : List (σ × ι)) s ↔ P s := by
  simp [Always]

@[simp]
theorem always_cons : Always P ((s₁, i) :: tr) s ↔ P s₁ ∧ Always P tr s := by
  simp [Always, and_assoc]

@[simp]
theorem meets_nil : Meets C ([] : List (σ × ι)) := by
  simp [Meets]

@[simp]
theorem meets_cons : Meets C ((s₁, i) :: tr) ↔ C s₁ i ∧ Meets C tr := by
  simp [Meets]

theorem Always.last (h : Always P tr s) : P s :=
  h.right

theorem Always.head (h : Always P tr s₂) (r : Run step s₁ tr s₂) : P s₁ := by
  cases r
  case refl => exact h.last
  case step => exact (always_cons.mp h).left

theorem Always.mono {Q : σ → Prop} (h : Always P tr s) (hi : ∀ s, P s → Q s) : Always Q tr s :=
  ⟨fun x hx => hi _ (h.left x hx), hi _ h.right⟩

end

theorem single (h : step s₁ i s₂) : Run step s₁ [(s₁, i)] s₂ :=
  .step h .refl

theorem append (r₁ : Run step s₁ tr s₂) (r₂ : Run step s₂ tr' s₃) :
    Run step s₁ (tr ++ tr') s₃ := by
  induction r₁
  case refl          => exact r₂
  case step e _ hi => exact .step e (hi r₂)

-- The condition that all steps meet may be taken for a part of the steps.
theorem of_meets {C : σ → ι → Prop} (r : Run step s₁ tr s₂) (h : Meets C tr) :
    Run (fun s i s' => C s i ∧ step s i s') s₁ tr s₂ := by
  induction r
  case refl => exact .refl
  case step e _ hi => exact .step ⟨h _ List.mem_cons_self, e⟩ (hi fun x hx => h x (.tail _ hx))

-- Where the next state is computed by a function, every list of labels has its run.
def trace (f : ι → σ → σ) : List ι → σ → List (σ × ι)
  | [], _      => []
  | i :: is, s => (s, i) :: trace f is (f i s)

theorem of_trace (f : ι → σ → σ) (is : List ι) (s : σ) :
    Run (fun s i s' => f i s = s') s (trace f is s) (is.foldl (fun s i => f i s) s) := by
  induction is generalizing s
  case nil          => exact .refl
  case cons i is hi => exact .step rfl (hi _)

-- The same where the function is partial: the run lasts as long as there is a next state.
def partialTrace (f : ι → σ → Option σ) : List ι → σ → List (σ × ι)
  | [], _      => []
  | i :: is, s => (s, i) :: ((f i s).map (partialTrace f is)).getD []

theorem of_partialTrace (f : ι → σ → Option σ) (is : List ι) (s : σ) {s' : σ}
    (h : is.foldlM (fun s i => f i s) s = some s') :
    Run (fun s i s' => f i s = some s') s (partialTrace f is s) s' := by
  induction is generalizing s
  case nil =>
    cases h
    exact .refl
  case cons i is hi =>
    have ⟨s₁, h₁, h⟩ := Option.bind_eq_some_iff.mp h
    simp only [partialTrace, h₁, Option.map_some, Option.getD_some]
    exact .step h₁ (hi s₁ h)

theorem exists_partialTrace (f : ι → σ → Option σ) (is : List ι) (s : σ) (p : σ → Bool)
    (h : (is.foldlM (fun s i => f i s) s).any p) :
    ∃ s', Run (fun s i s' => f i s = some s') s (partialTrace f is s) s' ∧ p s' := by
  cases hs : is.foldlM (fun s i => f i s) s
  case none    => simp [hs] at h
  case some s' => exact ⟨s', of_partialTrace f is s hs, by simpa [hs] using h⟩

section

variable {I P : σ → Prop} {C : σ → ι → Prop}

-- The induction rule for runs whose steps all meet `C`: it is enough that such a step keeps `I`.
theorem always_of_meets
    (hp : ∀ s i s', I s → C s i → step s i s' → I s') (r : Run step s₁ tr s₂) (h : I s₁)
    (hc : Meets C tr) : Always I tr s₂ := by
  induction r
  case refl => exact always_nil.mpr h
  case step e _ hi =>
    have ⟨hc, hcs⟩ := meets_cons.mp hc
    exact always_cons.mpr ⟨h, hi (hp _ _ _ h hc e) hcs⟩

theorem invariant (hp : ∀ s i s', I s → step s i s' → I s') (r : Run step s₁ tr s₂) (h : I s₁) :
    I s₂ := by
  induction r
  case refl        => exact h
  case step e _ hi => exact hi (hp _ _ _ h e)

-- When, in the states of `I`, a step lands in `P` exactly if it meets `C`, a whole run stays in
-- `P` exactly if all of its steps meet `C`.
theorem always_iff_meets
    (hp : ∀ s i s', I s → C s i → step s i s' → I s') (hi : ∀ s, I s → P s)
    (hc : ∀ s i s', I s → step s i s' → P s' → C s i) (r : Run step s₁ tr s₂) (h : I s₁) :
    Always P tr s₂ ↔ Meets C tr := by
  constructor
  case mpr => exact fun hm => (always_of_meets hp r h hm).mono hi
  case mp =>
    intro ha
    induction r
    case refl => exact meets_nil
    case step e r ih =>
      have ⟨_, ha⟩ := always_cons.mp ha
      have hs := hc _ _ _ h e (ha.head r)
      exact meets_cons.mpr ⟨hs, ih (hp _ _ _ h hs e) ha⟩

end

section

variable {I : σ → Prop} {C : σ → ι → Prop} {m : σ → ℕ}

-- A measure that never falls, and rises exactly in those steps that do not meet `C`, is in the end
-- what it was exactly if all steps meet `C`.
theorem measure_eq_iff_meets (hp : ∀ s i s', I s → step s i s' → I s')
    (hc : ∀ s i s', I s → step s i s' → C s i → m s' = m s)
    (hn : ∀ s i s', I s → step s i s' → ¬C s i → m s < m s') (r : Run step s₁ tr s₂) (h : I s₁) :
    m s₁ ≤ m s₂ ∧ (m s₂ = m s₁ ↔ Meets C tr) := by
  induction r
  case refl => exact ⟨Nat.le_refl _, by simp⟩
  case step s s' _ i _ e _ hi =>
    have ⟨hle, heq⟩ := hi (hp _ _ _ h e)
    rw [meets_cons]
    by_cases hs : C s i
    case pos =>
      rw [hc _ _ _ h e hs] at hle heq
      exact ⟨hle, heq.trans (and_iff_right hs).symm⟩
    case neg =>
      have hlt := Nat.lt_of_lt_of_le (hn _ _ _ h e hs) hle
      exact ⟨Nat.le_of_lt hlt, fun he => absurd he (Nat.ne_of_gt hlt), fun hm => absurd hm.left hs⟩

end

end Run
