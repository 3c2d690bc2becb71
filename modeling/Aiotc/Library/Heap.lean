import Mathlib.Data.Set.Basic

-- Blocks of a heap and the places that own them: what a place owns is valid, and no other place
-- owns it. Each rule below is about what one change of the heap asks of the new owners.

namespace Heap

variable {ι α : Type*} {valid valid' : α → Prop} {own own' : ι → α → Prop} {i j : ι} {a : α}

structure Owns (valid : α → Prop) (own : ι → α → Prop) : Prop where
  valid : ∀ i a, own i a → valid a
  inj   : ∀ i j a, own i a → own j a → i = j

namespace Owns

theorem empty (h : ∀ i a, ¬own i a) : Owns valid own where
  valid i a ha := absurd ha (h i a)
  inj i _ a ha := absurd ha (h i a)

theorem mono (h : Owns valid own) (hv : ∀ a, valid a → valid' a)
    (ho : ∀ i a, own' i a → own i a) : Owns valid' own' where
  valid i a ha    := hv a (h.valid i a (ho i a ha))
  inj i j a ha hb := h.inj i j a (ho i a ha) (ho j a hb)

-- The blocks of the places in `s` are freed, and only the other places still own theirs.
theorem release (h : Owns valid own) (s : Set ι)
    (hv : ∀ a, valid a → (∀ i ∈ s, ¬own i a) → valid' a)
    (ho : ∀ i a, own' i a → own i a ∧ i ∉ s) : Owns valid' own' where
  valid i a ha := by
    have ⟨ha, hi⟩ := ho i a ha
    exact hv a (h.valid i a ha) fun j hj hb => hi (h.inj j i a hb ha ▸ hj)
  inj i j a ha hb := h.inj i j a (ho i a ha).left (ho j a hb).left

-- No place owned the new block, which was not valid before.
theorem acquire (h : Owns valid own) (hn : ¬valid a) (hv : ∀ a, valid a → valid' a)
    (ha : valid' a) (ho : ∀ j b, own' j b → own j b ∨ (j = i ∧ b = a)) : Owns valid' own' where
  valid j b hb := by
    rcases ho j b hb with hb | ⟨-, rfl⟩
    · exact hv b (h.valid j b hb)
    · exact ha
  inj j k b hj hk := by
    rcases ho j b hj with hj | ⟨rfl, rfl⟩ <;> rcases ho k b hk with hk | ⟨rfl, hk⟩
    · exact h.inj j k b hj hk
    · exact absurd (hk ▸ h.valid j b hj) hn
    · exact absurd (h.valid k b hk) hn
    · rfl

theorem transfer (h : Owns valid own) (hi : own i a)
    (ho : ∀ k b, own' k b → (own k b ∧ k ≠ i) ∨ (k = j ∧ b = a)) : Owns valid own' where
  valid k b hb := by
    rcases ho k b hb with ⟨hb, -⟩ | ⟨-, rfl⟩
    · exact h.valid k b hb
    · exact h.valid i b hi
  inj k l b hk hl := by
    rcases ho k b hk with ⟨hk, hki⟩ | ⟨rfl, rfl⟩ <;> rcases ho l b hl with ⟨hl, hli⟩ | ⟨rfl, hl⟩
    · exact h.inj k l b hk hl
    · exact absurd (h.inj k i b hk (hl ▸ hi)) hki
    · exact absurd (h.inj l i b hl hi) hli
    · rfl

end Owns

end Heap
