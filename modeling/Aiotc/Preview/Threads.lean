import Aiotc.Library.Heap
import Aiotc.Preview.Task

-- What the preview threads and the operations of `previewTaskOps` do to the memory that they share.

namespace PreviewShm

variable {shm shm' shm'' : PreviewShm} {b c : Ptr} {f : PreviewParams → PreviewParams}

def Valid (b : Ptr) (shm : PreviewShm) : Prop :=
  (shm.get b).isSome

theorem Valid.not_freed (h : shm.Valid b) : shm.freed b = false := by
  cases b
  case none => rfl
  case some b =>
    simp only [Valid, get, Option.bind_eq_bind, Option.bind_some] at h
    cases hb : shm.blocks[b]? <;> simp_all [freed]

-- The same blocks are allocated, and none was used when it should not.
structure Same (shm shm' : PreviewShm) : Prop where
  fault : shm'.fault = shm.fault
  valid : ∀ b, shm'.Valid b ↔ shm.Valid b
  freed : ∀ b, shm'.freed b = shm.freed b

theorem Same.refl : Same shm shm :=
  ⟨rfl, fun _ => Iff.rfl, fun _ => rfl⟩

theorem Same.trans (h₁ : Same shm shm') (h₂ : Same shm' shm'') : Same shm shm'' where
  fault   := h₂.fault.trans h₁.fault
  valid b := (h₂.valid b).trans (h₁.valid b)
  freed b := (h₂.freed b).trans (h₁.freed b)

@[simp]
theorem fault_deref : (shm.deref b).fault = (shm.fault || shm.freed b) :=
  rfl

@[simp]
theorem fault_write : (shm.write b f).fault = (shm.fault || shm.freed b) :=
  rfl

theorem Same.deref (h : shm.Valid b) : Same shm (shm.deref b) where
  fault   := by simp [h.not_freed]
  valid _ := Iff.rfl
  freed _ := rfl

theorem Same.write (h : shm.Valid b) : Same shm (shm.write b f) where
  fault   := by simp [h.not_freed]
  valid c := by
    cases c
    case none => exact Iff.rfl
    case some c =>
      simp only [Valid, get, PreviewShm.write, PreviewShm.deref, List.getElem?_modify,
        Option.bind_eq_bind, Option.bind_some]
      cases shm.blocks[c]? <;> simp
      split <;> simp
  freed c := by
    cases c
    case none => rfl
    case some c =>
      simp only [PreviewShm.freed, PreviewShm.write, PreviewShm.deref, List.getElem?_modify,
        Option.any_some]
      cases shm.blocks[c]? <;> simp
      split <;> simp

theorem get_write : (shm.write b f).get c = if c = b then (shm.get c).map f else shm.get c := by
  cases c
  case none =>
    split <;> rfl
  case some c =>
    simp only [get, PreviewShm.write, PreviewShm.deref, List.getElem?_modify, Option.bind_eq_bind,
      Option.bind_some]
    cases hc : shm.blocks[c]?
    case none => cases b <;> simp
    case some x =>
      have hl := (List.getElem?_eq_some_iff.mp hc).choose
      cases b
      case none => simp [Nat.ne_of_gt hl]
      case some b =>
        by_cases hb : c = b
        case pos => simp [hb]
        case neg => simp [hb, Ne.symm hb]

-- Of the blocks, the one at `args` may have got another `running`.
structure Keeps (args : Ptr) (shm shm' : PreviewShm) : Prop extends Same shm shm' where
  other : ∀ c, c ≠ args → shm'.get c = shm.get c
  ops   : ∀ x, shm.get args = some x → ∃ x', shm'.get args = some x' ∧ x'.ops = x.ops

theorem Keeps.refl : Keeps b shm shm :=
  ⟨.refl, fun _ _ => rfl, fun x hx => ⟨x, hx, rfl⟩⟩

theorem Keeps.trans (h₁ : Keeps b shm shm') (h₂ : Keeps b shm' shm'') : Keeps b shm shm'' where
  toSame    := h₁.toSame.trans h₂.toSame
  other c h := (h₂.other c h).trans (h₁.other c h)
  ops x hx  :=
    have ⟨x', hx', ho⟩ := h₁.ops x hx
    have ⟨x'', hx'', ho'⟩ := h₂.ops x' hx'
    ⟨x'', hx'', ho'.trans ho⟩

theorem Keeps.deref (h : shm.Valid b) : Keeps b shm (shm.deref b) :=
  ⟨.deref h, fun _ _ => rfl, fun x hx => ⟨x, hx, rfl⟩⟩

theorem Keeps.write (h : shm.Valid b) (hf : ∀ x, (f x).ops = x.ops) :
    Keeps b shm (shm.write b f) where
  toSame    := .write h
  other c h := by rw [get_write, if_neg h]
  ops x hx  := ⟨f x, by rw [get_write, if_pos rfl, hx, Option.map_some], hf x⟩

-- A block that is allocated is a new one.
theorem valid_new : (shm.shmMalloc true).2.Valid (some shm.blocks.length) := by
  simp [Valid, get, shmMalloc]

theorem not_valid_new : ¬shm.Valid (some shm.blocks.length) := by
  simp [Valid, get]

theorem Valid.lt {b : Addr} (h : shm.Valid (some b)) : b < shm.blocks.length := by
  by_contra hge
  simp [Valid, get, List.getElem?_eq_none (Nat.not_lt.mp hge)] at h

theorem Valid.shmMalloc {b : Addr} (h : shm.Valid (some b)) :
    (shm.shmMalloc true).2.Valid (some b) := by
  simpa [Valid, get, PreviewShm.shmMalloc, List.getElem?_append_left h.lt] using h

theorem get_shmMalloc {b : Addr} {x : PreviewParams} (h : shm.get (some b) = some x) :
    (shm.shmMalloc true).2.get (some b) = some x := by
  have hl : b < shm.blocks.length := Valid.lt (by simp [Valid, h])
  simpa [get, PreviewShm.shmMalloc, List.getElem?_append_left hl] using h

theorem get_shmFree {b : Addr} (h : c ≠ some b) : (shm.shmFree (some b)).get c = shm.get c := by
  cases c
  case none => rfl
  case some c =>
    have hc : b ≠ c := fun he => h (by rw [he])
    simp [get, PreviewShm.shmFree, PreviewShm.deref, hc]

theorem freed_shmMalloc (h : shm.freed b) : (shm.shmMalloc true).2.freed b := by
  cases b
  case none => cases h
  case some b =>
    simp only [freed, shmMalloc, if_true, Option.any_some, List.getElem?_append] at h ⊢
    split
    · exact h
    · simp_all

theorem Valid.shmFree {b c : Addr} (h : shm.Valid (some c)) (hc : c ≠ b) :
    (shm.shmFree (some b)).Valid (some c) := by
  simpa [Valid, get, PreviewShm.shmFree, PreviewShm.deref, Ne.symm hc] using h

theorem Valid.freed_shmFree {b : Addr} (h : shm.Valid (some b)) :
    (shm.shmFree (some b)).freed (some b) := by
  simp [freed, PreviewShm.shmFree, PreviewShm.deref, h.lt]

theorem freed_shmFree {b : Addr} (h : shm.freed c) : (shm.shmFree (some b)).freed c := by
  cases c
  case none => cases h
  case some c =>
    simp only [freed, Option.any_some, shmFree, deref, Option.getD_some, List.getElem?_set] at h ⊢
    split
    case isFalse => exact h
    case isTrue hbc =>
      subst hbc
      split <;> simp_all

end PreviewShm

namespace PreviewThread

-- The pointers that a thread still uses.
def holds (t : PreviewThread) : List Ptr :=
  match t.pc with
  | .alloc     => []
  | .running   => [t.args]
  | .init      => [t.args]
  | .probe     => [t.args, t.frame, t.called.getD t.frame]
  | .failed    => [t.args]
  | .checkFunc => [t.args]
  | .enter     => []
  | .loop      => [t.frame, t.called.getD t.frame]
  | .body      => [t.frame, t.called.getD t.frame]
  | .unInit    => []
  | .release   => [t.frame]
  | .free      => []
  | .null      => []
  | .last      => []
  | .ended     => []

-- It still has its object's block.
def inUse (t : PreviewThread) : Bool :=
  t.pc ∉ [.null, .last, .ended]

-- It has not set `running` yet.
def starting (t : PreviewThread) : Bool :=
  t.pc ∈ [.alloc, .running]

variable {t t' : PreviewThread} {x : Progress} {preview : CStr} {args args' : Ptr}
  {shm shm' : PreviewShm}

theorem inUse_iff : t.inUse ↔ t.live ∧ t.pc ≠ .null ∧ t.pc ≠ .last := by
  simp [inUse, live]
  tauto

theorem use_keeps (hf : t.frame = args) (hc : t.called.getD t.frame = args)
    (hv : shm.Valid args) : shm.Keeps args (t.use shm) := by
  have hs : shm.Keeps args (shm.deref args) := .deref hv
  simp only [use, hf ▸ hc, hf]
  exact hs.trans (.deref ((hs.valid args).mpr hv))

theorem step_fixed (e : t.step x preview args shm = some (t', args', shm')) :
    t'.obj = t.obj ∧ t'.node = t.node := by
  simp only [step] at e
  split at e
  all_goals first | (split at e <;> cases e <;> exact ⟨rfl, rfl⟩) | (cases e <;> exact ⟨rfl, rfl⟩)

theorem holds_initialized (ha : t.args = args) : ∀ q ∈ t.initialized.holds, q = args := by
  simp only [initialized]
  split <;> simp [holds, ha]

theorem initialized_pc_ne : t.initialized.pc ≠ .null := by
  simp only [initialized]
  split <;> simp

theorem starting_initialized : t.initialized.starting = false := by
  simp only [initialized, starting]
  split <;> simp

-- That the process ends leaves the memory as it is.
theorem keeps_null {null : Bool} (h : shm.Keeps args shm') :
    shm.Keeps args { shm' with null := null } :=
  ⟨⟨h.fault, h.valid, h.freed⟩, h.other, h.ops⟩

-- What a thread does before it frees the memory.
structure Kept (args : Ptr) (t t' : PreviewThread) (shm shm' : PreviewShm) : Prop where
  keeps    : shm.Keeps args shm'
  holds    : ∀ q ∈ t'.holds, q = args
  null     : t'.pc ≠ .null
  starting : t'.starting → t.starting ∧ shm' = shm

theorem step_kept (h : ∀ q ∈ t.holds, q = args) (hv : shm.Valid args) (hu : t.inUse)
    (hf : t.pc ≠ .free) (e : t.step x preview args shm = some (t', args', shm')) :
    args' = args ∧ Kept args t t' shm shm' := by
  cases hp : t.pc <;> simp only [holds, hp, List.forall_mem_cons, List.not_mem_nil, false_implies,
    implies_true, and_true] at h <;> simp only [step, hp] at e
  case alloc =>
    cases x <;> cases e <;> exact ⟨rfl, .refl, by simp [holds], by simp, by simp [starting, hp]⟩
  case running =>
    cases e
    exact ⟨rfl, by rw [h]; exact .write hv fun _ => rfl, by simpa [holds] using h, by simp,
      by simp [starting]⟩
  case init =>
    cases e
    refine ⟨rfl, .deref hv, ?_, ?_, ?_⟩
    · split <;> simpa [holds] using h
    · split <;> simp
    · split <;> simp [starting]
  case probe =>
    have hu := use_keeps h.right.left h.right.right hv
    have hc : t.called.getD args = args := h.right.left ▸ h.right.right
    cases x <;> cases e
    case done =>
      exact ⟨rfl, keeps_null hu, holds_initialized h.left, initialized_pc_ne,
        by simp [starting_initialized]⟩
    all_goals exact ⟨rfl, hu, by simp [holds, hp, h, hc], by simp [hp], by simp [starting, hp]⟩
  case failed =>
    cases e
    exact ⟨rfl, by rw [h]; exact .write hv fun _ => rfl, holds_initialized h, initialized_pc_ne,
      by simp [starting_initialized]⟩
  case checkFunc =>
    cases e
    exact ⟨rfl, by rw [h]; exact .deref hv, by simp [holds], by simp, by simp [starting]⟩
  case enter =>
    cases e
    exact ⟨rfl, .deref hv, by simp [holds], by simp, by simp [starting]⟩
  case loop =>
    cases e
    have hc : t.called.getD args = args := h.left ▸ h.right
    refine ⟨rfl, by rw [h.left]; exact .deref hv, ?_, ?_, ?_⟩
    · split <;> simp [holds, h, hc]
    · split <;> simp
    · split <;> simp [starting]
  case body =>
    have hu := use_keeps h.left h.right hv
    have hc : t.called.getD args = args := h.left ▸ h.right
    cases x <;> cases e
    case fail =>
      have hw := hu.trans (.write (f := fun p => { p with running := 0 })
        ((hu.valid args).mpr hv) fun _ => rfl)
      exact ⟨rfl, h.left ▸ hw, by simp [holds, h], by simp, by simp [starting]⟩
    all_goals exact ⟨rfl, hu, by simp [holds, hp, h, hc], by simp [hp], by simp [starting, hp]⟩
  case unInit =>
    split at e <;> cases e
    · exact ⟨rfl, .deref hv, by simp [holds], by simp, by simp [starting]⟩
    · exact ⟨rfl, .refl, by simp [holds], by simp, by simp [starting]⟩
  case release =>
    cases e
    exact ⟨rfl, by rw [h]; exact .deref hv, by simp [holds], by simp, by simp [starting]⟩
  case free  => exact absurd hp hf
  case null  => simp [inUse, hp] at hu
  case last  => simp [inUse, hp] at hu
  case ended => cases e

end PreviewThread

namespace PreviewProc

-- What is promised of the threads of a process: an object has at most one that has not ended, a
-- stop is not lost, and no memory is used after it was freed.
structure Orderly (p : PreviewProc) : Prop where
  single : ∀ (j k : Nat) (t u : PreviewThread), p.threads[j]? = some t → p.threads[k]? = some u →
    t.live → u.live → t.obj = u.obj → j = k
  lost   : p.lost = false
  fault  : p.shm.fault = false
  stray  : p.stray = false

def Freed (p : PreviewProc) (i : Nat) : Prop :=
  ∃ t ∈ p.threads, t.obj = i ∧ t.pc = .null

-- A thread that still has its block has that of a backend with threads, and where it has not set
-- `running` nobody has, nor is the object stopped.
structure Waits (stopped : Bool) (t : PreviewThread) (b : Option PreviewParams) : Prop where
  block    : ∃ x ∈ b, x.ops.any Backend.threaded
  starting : t.starting → stopped = false ∧ ∀ x ∈ b, x.running = 0

-- An object owns the block that it points to until a thread of it has freed this. Threads that have
-- not done so hold no other.
structure Inv (args : Nat → Ptr) (p : PreviewProc) : Prop extends Orderly p where
  owns  : Heap.Owns (fun b => p.shm.Valid (some b)) fun i b => args i = some b ∧ ¬p.Freed i
  held  : ∀ t ∈ p.threads, t.live → t.pc ≠ .last →
    (args t.obj).isSome ∧ ∀ q ∈ t.holds, q = args t.obj
  freed : ∀ t ∈ p.threads, t.pc = .null → p.shm.freed (args t.obj)
  waits : ∀ t ∈ p.threads, t.inUse → Waits (p.stopped t.obj) t (p.shm.get (args t.obj))
  node  : ∀ t ∈ p.threads, t.live → t.node = true

theorem Waits.congr {stopped : Bool} {t t' : PreviewThread} {b b' : Option PreviewParams}
    (h : Waits stopped t b) (hs : t'.starting → t.starting ∧ b' = b)
    (ho : ∀ x, b = some x → ∃ x', b' = some x' ∧ x'.ops = x.ops) : Waits stopped t' b' where
  block :=
    have ⟨x, hx, hb⟩ := h.block
    have ⟨x', hx', ho⟩ := ho x hx
    ⟨x', hx', ho ▸ hb⟩
  starting hst :=
    have ⟨ht, he⟩ := hs hst
    he ▸ h.starting ht

namespace Inv

variable {args : Nat → Ptr} {p p' : PreviewProc} {i : Nat} {shm : PreviewShm}

theorem valid (h : Inv args p) (ha : (args i).isSome) (hf : ¬p.Freed i) : p.shm.Valid (args i) := by
  have ⟨b, hb⟩ := Option.isSome_iff_exists.mp ha
  exact hb ▸ h.owns.valid i b ⟨hb, hf⟩

-- Of a process the invariant is about the threads, the memory and the stops.
theorem congr (h : Inv args p) (ht : p'.threads = p.threads) (hs : p'.shm = p.shm)
    (hl : p'.lost = p.lost) (hy : p'.stray = p.stray)
    (hp : ∀ t ∈ p.threads, t.starting → p.stopped t.obj = false → p'.stopped t.obj = false) :
    Inv args p' := by
  have ⟨shm, threads, _, _, lost, stray⟩ := p
  have ⟨_, _, _, _, _, _⟩ := p'
  cases ht
  cases hs
  cases hl
  cases hy
  refine ⟨⟨h.single, h.lost, h.fault, h.stray⟩, h.owns, h.held, h.freed, fun t hm hu => ?_, h.node⟩
  have hw := h.waits t hm hu
  exact ⟨hw.block, fun hst => ⟨hp t hm hst (hw.starting hst).left, (hw.starting hst).right⟩⟩

theorem other_args {t : PreviewThread} (h : Inv args p) (hm : t ∈ p.threads) (hu : t.inUse)
    (ho : t.obj ≠ i) (hf : ¬p.Freed i) (hn : ¬p.Freed t.obj) : args t.obj ≠ args i := by
  intro he
  have ⟨hl, _, hov⟩ := PreviewThread.inUse_iff.mp hu
  have ⟨b, hb⟩ := Option.isSome_iff_exists.mp (h.held t hm hl hov).left
  exact ho (h.owns.inj t.obj i b ⟨hb, hn⟩ ⟨he ▸ hb, hf⟩)

-- The memory changes, but of the blocks that threads have `running` at most.
theorem same (h : Inv args p) (hs : p.shm.Same shm)
    (hw : ∀ t ∈ p.threads, t.inUse → ∀ x, p.shm.get (args t.obj) = some x →
      ∃ x', shm.get (args t.obj) = some x' ∧ x'.ops = x.ops ∧ (x.running = 0 → x'.running = 0)) :
    Inv args { p with shm := shm } where
  single := h.single
  lost   := h.lost
  fault  := hs.fault.trans h.fault
  stray  := h.stray
  owns   := h.owns.mono (fun b => (hs.valid (some b)).mpr) fun _ _ => id
  held   := h.held
  freed t hm hp := (hs.freed _).trans (h.freed t hm hp)
  waits t hm hu := by
    obtain ⟨⟨x, hx, hb⟩, hst⟩ := h.waits t hm hu
    have ⟨x', hx', ho, hr⟩ := hw t hm hu x hx
    refine ⟨⟨x', hx', ho ▸ hb⟩, fun hs => ⟨(hst hs).left, fun y hy => ?_⟩⟩
    cases hx'.symm.trans hy
    exact hr ((hst hs).right x hx)
  node := h.node

theorem deref {b : Ptr} (h : Inv args p) (hv : p.shm.Valid b) :
    Inv args { p with shm := p.shm.deref b } :=
  h.same (.deref hv) fun _ _ _ x hx => ⟨x, hx, rfl, id⟩

-- A stop is written to a block.
theorem writeRunning {b : Ptr} (h : Inv args p) (hv : p.shm.Valid b) :
    Inv args { p with shm := p.shm.write b fun x => { x with running := 0 } } := by
  refine h.same (.write hv) fun t _ _ x hx => ?_
  rw [PreviewShm.get_write, hx]
  split
  · exact ⟨_, rfl, rfl, fun _ => rfl⟩
  · exact ⟨x, rfl, rfl, id⟩

theorem not_freed_of_live (hn : ∀ t ∈ p.threads, t.obj = i → t.live = false) : ¬p.Freed i := by
  rintro ⟨t, hm, ho, hp⟩
  have hl := hn t hm ho
  simp [PreviewThread.live, hp] at hl

theorem not_freed {t : PreviewThread} (h : Inv args p) (hm : t ∈ p.threads) (hl : t.live)
    (hn : t.pc ≠ .null) : ¬p.Freed t.obj := by
  rintro ⟨u, hu, ho, hp⟩
  have ⟨k, hk⟩ := List.mem_iff_getElem?.mp hu
  have ⟨j, hj⟩ := List.mem_iff_getElem?.mp hm
  have hkj := h.single k j u t hk hj (by simp [PreviewThread.live, hp]) hl ho
  subst hkj
  cases hj.symm.trans hk
  exact hn hp

-- The block of an object without a thread is written.
theorem writeOps {b : Option Backend} (h : Inv args p) (hs : (args i).isSome)
    (hn : ∀ t ∈ p.threads, t.obj = i → t.live = false) :
    Inv args { p with shm := p.shm.write (args i) fun _ => { ops := b } } := by
  have hf := not_freed_of_live hn
  refine h.same (.write (h.valid hs hf)) fun t hm hu x hx => ⟨x, ?_, rfl, id⟩
  have ⟨hl, hnull, _⟩ := PreviewThread.inUse_iff.mp hu
  have ho : t.obj ≠ i := fun ho => by simp [hn t hm ho] at hl
  rw [PreviewShm.get_write, if_neg (h.other_args hm hu ho hf (h.not_freed hm hl hnull)), hx]

theorem spawn {b : Backend} {x : PreviewParams} (h : Inv args p)
    (hn : ∀ t ∈ p.threads, t.obj = i → t.live = false)
    (hx : p.shm.get (args i) = some x) (hb : x.ops.any Backend.threaded) (hr : x.running = 0)
    (hs : p.stopped i = false) :
    Inv args { p with threads := p.threads ++ [{ obj := i, backend := b }] } where
  single j k t u hj hk ht hu ho := by
    have hs : ∀ {j : Nat} {t : PreviewThread},
        (p.threads ++ [{ obj := i, backend := b }])[j]? = some t →
        p.threads[j]? = some t ∨ j = p.threads.length ∧ t.obj = i := by
      intro j t hj
      rw [List.getElem?_append] at hj
      split at hj
      case isTrue  => exact .inl hj
      case isFalse =>
        obtain ⟨hl, rfl⟩ := List.getElem?_eq_some_iff.mp hj
        simp only [List.length_singleton] at hl
        exact .inr ⟨by omega, by simp⟩
    rcases hs hj with hj | ⟨rfl, hti⟩ <;> rcases hs hk with hk | ⟨rfl, hui⟩
    · exact h.single j k t u hj hk ht hu ho
    · simp [hn t (List.mem_of_getElem? hj) (ho.trans hui)] at ht
    · simp [hn u (List.mem_of_getElem? hk) (ho.symm.trans hti)] at hu
    · rfl
  lost   := h.lost
  fault  := h.fault
  stray  := h.stray
  owns   := by
    refine h.owns.mono (fun _ => id) fun j c hc => ⟨hc.left, ?_⟩
    rintro ⟨t, hm, ht⟩
    exact hc.right ⟨t, List.mem_append_left _ hm, ht⟩
  held t hm hl ho := by
    rcases List.mem_append.mp hm with hm | hm
    · exact h.held t hm hl ho
    · rw [List.mem_singleton.mp hm]
      refine ⟨?_, by simp [PreviewThread.holds]⟩
      by_contra hn
      simp [Option.not_isSome_iff_eq_none.mp hn, PreviewShm.get] at hx
  freed t hm hp := by
    rcases List.mem_append.mp hm with hm | hm
    · exact h.freed t hm hp
    · rw [List.mem_singleton.mp hm] at hp
      cases hp
  waits t hm hu := by
    rcases List.mem_append.mp hm with hm | hm
    · exact h.waits t hm hu
    · rw [List.mem_singleton.mp hm]
      refine ⟨⟨x, hx, hb⟩, fun _ => ⟨hs, fun y hy => ?_⟩⟩
      cases hx.symm.trans hy
      exact hr
  node t hm hl := by
    rcases List.mem_append.mp hm with hm | hm
    · exact h.node t hm hl
    · rw [List.mem_singleton.mp hm]

-- Threads of an object that points to no block, or to that of a backend without threads, have given
-- up their block.
theorem not_inUse (h : Inv args p)
    (ha : ∀ x ∈ p.shm.get (args i), x.ops.any Backend.threaded = false) :
    ∀ t ∈ p.threads, t.obj = i → t.inUse = false := by
  intro t hm ho
  by_contra hu
  have ⟨x, hx, hb⟩ := (h.waits t hm (by simpa using hu)).block
  simp [ha x (ho ▸ hx)] at hb

theorem malloc (h : Inv args p) (ha : args i = none)
    (hn : ∀ t ∈ p.threads, t.obj = i → t.live = false) :
    Inv (Function.update args i (p.shm.shmMalloc true).1)
      { p with shm := (p.shm.shmMalloc true).2 } where
  single := h.single
  lost   := h.lost
  fault  := h.fault
  stray  := h.stray
  owns   := by
    refine h.owns.acquire (i := i) PreviewShm.not_valid_new (fun _ hb => hb.shmMalloc)
      PreviewShm.valid_new fun j b hb => ?_
    by_cases hj : j = i
    case pos =>
      subst hj
      have := hb.left
      simp only [Function.update_self, PreviewShm.shmMalloc, if_true, Option.some.injEq] at this
      exact .inr ⟨rfl, this.symm⟩
    case neg => exact .inl ⟨by simpa [hj] using hb.left, hb.right⟩
  held t hm hl ho := by
    have hj : t.obj ≠ i := fun hj => by simp [hn t hm hj] at hl
    simpa [hj] using h.held t hm hl ho
  freed t hm hp := by
    have hj : t.obj ≠ i := fun hj => by
      have := hn t hm hj
      simp [PreviewThread.live, hp] at this
    simpa [hj] using PreviewShm.freed_shmMalloc (h.freed t hm hp)
  waits t hm hu := by
    have hl := PreviewThread.inUse_iff.mp hu
    have hj : t.obj ≠ i := fun hj => by simp [hn t hm hj] at hl
    obtain ⟨⟨x, hx, hb⟩, hst⟩ := h.waits t hm hu
    have hx' : (p.shm.shmMalloc true).2.get (args t.obj) = some x := by
      have ⟨b, hb⟩ := Option.isSome_iff_exists.mp (h.held t hm hl.left hl.right.right).left
      rw [hb] at hx ⊢
      exact PreviewShm.get_shmMalloc hx
    refine ⟨⟨x, by simpa [hj] using hx', hb⟩, fun hs => ⟨(hst hs).left, fun y hy => ?_⟩⟩
    have hy : (p.shm.shmMalloc true).2.get (args t.obj) = some y := by simpa [hj] using hy
    cases hx'.symm.trans hy
    exact (hst hs).right x hx
  node := h.node

theorem start {b : Backend} {create : Bool} {x : PreviewParams} (h : Inv args p)
    (hn : ∀ t ∈ p.threads, t.obj = i → t.live = false) (hx : p.shm.get (args i) = some x)
    (hb : x.ops = some b) (hr : x.running = 0) (hs : p.stopped i = false) :
    Inv args (p.start b create i) := by
  have hst : Inv args (p.setStarted i (some b)) := h.congr rfl rfl rfl rfl fun _ _ _ => id
  simp only [PreviewProc.start]
  split
  case isTrue hc  => exact hst.spawn hn hx (by simpa [hb] using hc.left) hr hs
  case isFalse    => exact hst

theorem stop {b : Backend} {t : TaskParams} (h : Inv args p) (hv : p.shm.Valid t.previewArgs) :
    Inv args (p.stop b i t) := by
  have hs : Inv args (p.setStarted i none) := h.congr rfl rfl rfl rfl fun _ _ _ => id
  simp only [PreviewProc.stop]
  split
  · exact hs.writeRunning hv
  · exact hs

theorem initPreviewOps (malloc : Bool) {t : TaskParams} (h : Inv args p)
    (ha : args i = t.previewArgs) (hn : ∀ th ∈ p.threads, th.obj = i → th.live = false) :
    let r := PreviewProc.initPreviewOps malloc t p
    Inv (Function.update args i r.2.1.previewArgs) r.2.2 ∧ r.2.2.threads = p.threads ∧
      r.2.2.stopped = p.stopped ∧
      ∀ b ∈ r.1, r.2.2.shm.get r.2.1.previewArgs = some { ops := some b } := by
  by_cases hno : t.previewArgs = none
  case pos =>
    cases malloc
    case false =>
      have hu : Function.update args i none = args := by rw [← hno, ← ha, Function.update_eq_self]
      simpa [PreviewProc.initPreviewOps, hno, PreviewShm.shmMalloc, hu] using h
    case true =>
      have hm := h.malloc (ha.trans hno) hn
      have hw := hm.writeOps (i := i) (b := Backend.named t.preview)
        (by simp [PreviewShm.shmMalloc]) hn
      simp only [Function.update_self] at hw
      simp only [PreviewProc.initPreviewOps, hno, if_true]
      refine ⟨hw, rfl, rfl, fun b hb => ?_⟩
      have hb : Backend.named t.preview = some b := hb
      have hg : (p.shm.shmMalloc true).2.get (some p.shm.blocks.length) = some {} := by
        simp [PreviewShm.get, PreviewShm.shmMalloc]
      change PreviewShm.get (some p.shm.blocks.length)
        ((p.shm.shmMalloc true).2.write (some p.shm.blocks.length) _) = _
      rw [PreviewShm.get_write, if_pos rfl, hg, hb]
      rfl
  case neg =>
    have hs : (args i).isSome := by rw [ha]; exact Option.isSome_iff_ne_none.mpr hno
    have hv := h.valid hs (not_freed_of_live hn)
    have hw := h.writeOps (b := Backend.named t.preview) hs hn
    rw [ha] at hv hw
    have hu : Function.update args i t.previewArgs = args := by rw [← ha, Function.update_eq_self]
    simp only [PreviewProc.initPreviewOps, hno, if_false, hu]
    refine ⟨hw, trivial, trivial, fun b hb => ?_⟩
    have hb : Backend.named t.preview = some b := hb
    have ⟨x, hx⟩ := Option.isSome_iff_exists.mp hv
    simp [PreviewShm.get_write, hx, hb]

theorem previewStart (out : PreviewOutcome) {t : TaskParams} (h : Inv args p)
    (ha : args i = t.previewArgs) (hn : ∀ th ∈ p.threads, th.obj = i → th.live = false) :
    Inv (Function.update args i (PreviewProc.previewStart out i t p).1.previewArgs)
      (PreviewProc.previewStart out i t p).2 := by
  have hs : Inv args (p.setStopped i false) := by
    refine h.congr rfl rfl rfl rfl fun th _ _ hst => ?_
    simp only [setStopped, Function.update_apply]
    split
    · rfl
    · exact hst
  obtain ⟨hi, ht, hst, hb⟩ := hs.initPreviewOps out.malloc ha hn
  simp only [PreviewProc.previewStart]
  generalize PreviewProc.initPreviewOps out.malloc t (p.setStopped i false) = r at hi ht hst hb ⊢
  obtain ⟨_ | b, t', p'⟩ := r
  case none => exact hi
  case some =>
    simp only at ht hst hb hi ⊢
    refine hi.start (x := { ops := some b }) (by rwa [ht]) ?_ rfl rfl ?_
    · rw [Function.update_self]
      exact hb b rfl
    · rw [hst]
      simp [setStopped]

theorem previewStop {t : TaskParams} (h : Inv args p) (ha : args i = t.previewArgs)
    (hf : ¬p.Freed i) (hn : ∀ th ∈ p.threads, th.obj = i → th.starting = false) :
    Inv args (PreviewProc.previewStop i t p).2 := by
  have hs : Inv args (p.setStopped i true) := by
    refine h.congr rfl rfl rfl rfl fun th hm hst hp => ?_
    have ho : th.obj ≠ i := fun ho => by simp [hn th hm ho] at hst
    simpa [setStopped, ho] using hp
  simp only [PreviewProc.previewStop]
  split
  case isTrue => exact hs
  case isFalse hno =>
    have hv := h.valid (by rw [ha]; exact Option.isSome_iff_ne_none.mpr hno) hf
    rw [ha] at hv
    have hd := hs.deref hv
    split
    · exact hd
    · exact hd.stop hv

theorem freeNode (h : Inv args p) {taken : Option Nat}
    (hn : ∀ i ∈ taken, ∀ t ∈ p.threads, t.obj = i → t.live = false) :
    Inv args (p.freeNode taken) := by
  let f : PreviewThread → PreviewThread := (·.freeNode taken)
  have hf : ∀ t, (f t).obj = t.obj ∧ (f t).pc = t.pc ∧ (f t).holds = t.holds := by
    intro t
    simp only [f, PreviewThread.freeNode]
    split <;> exact ⟨rfl, rfl, rfl⟩
  have hm : ∀ t' ∈ p.threads.map f, ∃ t ∈ p.threads, t' = f t := by
    intro t' hm
    have ⟨t, ht, he⟩ := List.mem_map.mp hm
    exact ⟨t, ht, he.symm⟩
  have hfreed : ∀ i, (p.freeNode taken).Freed i ↔ p.Freed i := by
    intro i
    constructor
    · rintro ⟨t', ht', ho, hp⟩
      obtain ⟨t, ht, rfl⟩ := hm t' ht'
      exact ⟨t, ht, (hf t).left ▸ ho, (hf t).right.left ▸ hp⟩
    · rintro ⟨t, ht, ho, hp⟩
      exact ⟨f t, List.mem_map_of_mem ht, (hf t).left.trans ho, (hf t).right.left.trans hp⟩
  have hlive : ∀ t, (f t).live = t.live := fun t => by
    simp only [PreviewThread.live, (hf t).right.left]
  refine ⟨⟨fun j k t u hj hk ht hu ho => ?_, h.lost, h.fault, h.stray⟩, ?_, ?_, ?_, ?_, ?_⟩
  case refine_1 =>
    simp only [PreviewProc.freeNode, List.getElem?_map] at hj hk
    obtain ⟨t', hj', rfl⟩ := Option.map_eq_some_iff.mp hj
    obtain ⟨u', hk', rfl⟩ := Option.map_eq_some_iff.mp hk
    have ho : (f t').obj = (f u').obj := ho
    rw [(hf t').left, (hf u').left] at ho
    exact h.single j k t' u' hj' hk' ((hlive t') ▸ ht) ((hlive u') ▸ hu) ho
  case refine_2 =>
    exact h.owns.mono (fun _ => id) fun i b hb => ⟨hb.left, (hfreed i).not.mp hb.right⟩
  case refine_3 =>
    intro t' ht' hl ho
    obtain ⟨t, ht, rfl⟩ := hm t' ht'
    rw [(hf t).left, (hf t).right.right]
    exact h.held t ht (hlive t ▸ hl) ((hf t).right.left ▸ ho)
  case refine_4 =>
    intro t' ht' hp
    obtain ⟨t, ht, rfl⟩ := hm t' ht'
    rw [(hf t).left]
    exact h.freed t ht ((hf t).right.left ▸ hp)
  case refine_5 =>
    intro t' ht' hu
    obtain ⟨t, ht, rfl⟩ := hm t' ht'
    have hi : (f t).inUse = t.inUse := by simp only [PreviewThread.inUse, (hf t).right.left]
    have hs : (f t).starting = t.starting := by
      simp only [PreviewThread.starting, (hf t).right.left]
    rw [(hf t).left]
    exact (h.waits t ht (hi ▸ hu)).congr (fun hst => ⟨hs ▸ hst, rfl⟩) fun x hx => ⟨x, hx, rfl⟩
  case refine_6 =>
    intro t' ht' hl
    obtain ⟨t, ht, rfl⟩ := hm t' ht'
    have hl : t.live := hlive t ▸ hl
    have hne : taken ≠ some t.obj := fun he => by simp [hn t.obj he t ht rfl] at hl
    simpa [f, PreviewThread.freeNode, hne] using h.node t ht hl

section

variable {j : Nat} {t t' : PreviewThread} {x : Progress} {preview : CStr} {args' : Ptr}

theorem mem_set {u : PreviewThread} (hm : u ∈ p.threads.set j t') :
    u = t' ∨ ∃ k, k ≠ j ∧ p.threads[k]? = some u := by
  have ⟨k, hk⟩ := List.mem_iff_getElem?.mp hm
  by_cases hkj : k = j
  case pos =>
    subst hkj
    obtain ⟨hl, rfl⟩ := List.getElem?_eq_some_iff.mp hk
    exact .inl (by simp)
  case neg => exact .inr ⟨k, hkj, by rwa [List.getElem?_set_ne (Ne.symm hkj)] at hk⟩

-- A thread stays that of its object.
theorem single_set (h : Inv args p) (ht : p.threads[j]? = some t) (ho : t'.obj = t.obj)
    (hl : t.live) : ∀ (k l : Nat) (u v : PreviewThread), (p.threads.set j t')[k]? = some u →
      (p.threads.set j t')[l]? = some v → u.live → v.live → u.obj = v.obj → k = l := by
  have hs : ∀ {k : Nat} {u : PreviewThread}, (p.threads.set j t')[k]? = some u → u.live →
      ∃ u', p.threads[k]? = some u' ∧ u'.live ∧ u'.obj = u.obj := by
    intro k u hk hu
    by_cases hkj : k = j
    case pos =>
      subst hkj
      obtain ⟨hlt, rfl⟩ := List.getElem?_eq_some_iff.mp hk
      simp only [List.getElem_set_self] at hu ⊢
      exact ⟨t, ht, hl, ho.symm⟩
    case neg => exact ⟨u, by rwa [List.getElem?_set_ne (Ne.symm hkj)] at hk, hu, rfl⟩
  intro k l u v hk hv hu hv' huv
  have ⟨u', hk', hu', ho₁⟩ := hs hk hu
  have ⟨v', hl', hv', ho₂⟩ := hs hv hv'
  exact h.single k l u' v' hk' hl' hu' hv' (ho₁.trans (huv.trans ho₂.symm))

theorem other_obj (h : Inv args p) (ht : p.threads[j]? = some t) (hl : t.live) {k : Nat}
    {u : PreviewThread} (hk : p.threads[k]? = some u) (hu : u.live) (hkj : k ≠ j) :
    u.obj ≠ t.obj :=
  fun ho => hkj (h.single k j u t hk ht hu hl ho)

-- Only the thread that goes on can leave the place at which its object counts as freed.
theorem freed_set (ht : p.threads[j]? = some t) (hi : i = t.obj → t.pc ≠ .null)
    (hf : p.Freed i) : ∃ u ∈ p.threads.set j t', u.obj = i ∧ u.pc = .null := by
  have ⟨u, hm, ho, hp⟩ := hf
  have ⟨k, hk⟩ := List.mem_iff_getElem?.mp hm
  have hkj : j ≠ k := by
    rintro rfl
    cases ht.symm.trans hk
    exact hi ho.symm hp
  exact ⟨u, List.mem_of_getElem? (by rwa [List.getElem?_set_ne hkj]), ho, hp⟩

theorem set (h : Inv args p) (ht : p.threads[j]? = some t) (hu : t.inUse)
    (ho : t'.obj = t.obj ∧ t'.node = t.node)
    (hk : PreviewThread.Kept (args t.obj) t t' p.shm shm) :
    Inv args { p with shm := shm, threads := p.threads.set j t' } := by
  have ⟨hl, hnull, hover⟩ := PreviewThread.inUse_iff.mp hu
  have hmt := List.mem_of_getElem? ht
  have hs := hk.keeps.toSame
  refine ⟨⟨h.single_set ht ho.left hl, h.lost, hs.fault.trans h.fault, h.stray⟩, ?_, ?_, ?_, ?_, ?_⟩
  case refine_1 =>
    exact h.owns.mono (fun b => (hs.valid (some b)).mpr) fun i b hb =>
      ⟨hb.left, fun hf => hb.right (freed_set ht (fun _ => hnull) hf)⟩
  case refine_2 =>
    intro u hm hu hou
    rcases mem_set hm with rfl | ⟨k, -, hk⟩
    · rw [ho.left]
      exact ⟨(h.held t hmt hl hover).left, hk.holds⟩
    · exact h.held u (List.mem_of_getElem? hk) hu hou
  case refine_3 =>
    intro u hm hu
    rcases mem_set hm with rfl | ⟨k, -, hk⟩
    · exact absurd hu hk.null
    · exact (hs.freed _).trans (h.freed u (List.mem_of_getElem? hk) hu)
  case refine_4 =>
    intro u hm huu
    rcases mem_set hm with rfl | ⟨k, hkj, hk'⟩
    · rw [ho.left]
      refine (h.waits t hmt hu).congr (fun hst => ?_) hk.keeps.ops
      exact ⟨(hk.starting hst).left, by rw [(hk.starting hst).right]⟩
    · have hmu := List.mem_of_getElem? hk'
      have hlu := PreviewThread.inUse_iff.mp huu
      have hne := h.other_args hmu huu (h.other_obj ht hl hk' hlu.left hkj)
        (h.not_freed hmt hl hnull) (h.not_freed hmu hlu.left hlu.right.left)
      change Waits _ u (shm.get _)
      rw [hk.keeps.other _ hne]
      exact h.waits u hmu huu
  case refine_5 =>
    intro u hm hu
    rcases mem_set hm with rfl | ⟨k, -, hk⟩
    · exact ho.right.trans (h.node t hmt hl)
    · exact h.node u (List.mem_of_getElem? hk) hu

theorem shmFree (h : Inv args p) (ht : p.threads[j]? = some t) (hp : t.pc = .free) :
    Inv args { p with
      shm := p.shm.shmFree (args t.obj)
      threads := p.threads.set j { t with pc := .null } } := by
  have hl : t.live := by simp [PreviewThread.live, hp]
  have hmt := List.mem_of_getElem? ht
  have hh := h.held t hmt hl (by simp [hp])
  have hn : ¬p.Freed t.obj := h.not_freed hmt hl (by simp [hp])
  have hv := h.valid hh.left hn
  have ⟨b, hb⟩ := Option.isSome_iff_exists.mp hh.left
  rw [hb] at hv ⊢
  have hj : (p.threads.set j { t with pc := .null })[j]? = some { t with pc := .null } :=
    List.getElem?_set_self (List.getElem?_eq_some_iff.mp ht).choose
  refine ⟨⟨h.single_set ht rfl hl, h.lost, ?_, h.stray⟩, ?_, ?_, ?_, ?_, ?_⟩
  case refine_1 => simp [PreviewShm.shmFree, h.fault, hv.not_freed]
  case refine_2 =>
    refine h.owns.release {t.obj} (fun c hc hs => ?_) fun i c hc => ?_
    case refine_1 =>
      have hcb : c ≠ b := fun hcb => hs t.obj rfl ⟨hcb ▸ hb, hn⟩
      exact PreviewShm.Valid.shmFree hc hcb
    case refine_2 =>
      have hi : i ≠ t.obj := by
        rintro rfl
        exact hc.right ⟨_, List.mem_of_getElem? hj, rfl, rfl⟩
      exact ⟨⟨hc.left, fun hf => hc.right (freed_set ht (fun ho => absurd ho hi) hf)⟩, hi⟩
  case refine_3 =>
    intro u hm hu hou
    rcases mem_set hm with rfl | ⟨k, -, hk⟩
    · exact ⟨hh.left, by simp [PreviewThread.holds]⟩
    · exact h.held u (List.mem_of_getElem? hk) hu hou
  case refine_4 =>
    intro u hm hu
    rcases mem_set hm with rfl | ⟨k, -, hk⟩
    · exact hb ▸ hv.freed_shmFree
    · exact PreviewShm.freed_shmFree (h.freed u (List.mem_of_getElem? hk) hu)
  case refine_5 =>
    intro u hm huu
    rcases mem_set hm with rfl | ⟨k, hkj, hk'⟩
    · simp [PreviewThread.inUse] at huu
    · have hmu := List.mem_of_getElem? hk'
      have hlu := PreviewThread.inUse_iff.mp huu
      have hne := h.other_args hmu huu (h.other_obj ht hl hk' hlu.left hkj) hn
        (h.not_freed hmu hlu.left hlu.right.left)
      change Waits _ u (PreviewShm.get _ (p.shm.shmFree (some b)))
      rw [PreviewShm.get_shmFree (hb ▸ hne)]
      exact h.waits u hmu huu
  case refine_6 =>
    intro u hm hu
    rcases mem_set hm with rfl | ⟨k, -, hk⟩
    · exact h.node t hmt hl
    · exact h.node u (List.mem_of_getElem? hk) hu

theorem null (h : Inv args p) (ht : p.threads[j]? = some t) (hp : t.pc = .null) :
    Inv (Function.update args t.obj none)
      { p with threads := p.threads.set j { t with pc := .last } } := by
  have hl : t.live := by simp [PreviewThread.live, hp]
  refine ⟨⟨h.single_set ht rfl hl, h.lost, h.fault, h.stray⟩, ?_, ?_, ?_, ?_, ?_⟩
  case refine_1 =>
    apply h.owns.mono (fun _ => id)
    intro i c hc
    have hi : i ≠ t.obj := by
      rintro rfl
      simpa using hc.left
    exact ⟨by simpa [hi] using hc.left,
      fun hf => hc.right (freed_set ht (fun ho => absurd ho hi) hf)⟩
  case refine_2 =>
    intro u hm hu hou
    rcases mem_set hm with rfl | ⟨k, hkj, hk⟩
    · exact absurd rfl hou
    · simpa [h.other_obj ht hl hk hu hkj] using h.held u (List.mem_of_getElem? hk) hu hou
  case refine_3 =>
    intro u hm hu
    rcases mem_set hm with rfl | ⟨k, hkj, hk⟩
    · cases hu
    · have hu' : u.live := by simp [PreviewThread.live, hu]
      simpa [h.other_obj ht hl hk hu' hkj] using h.freed u (List.mem_of_getElem? hk) hu
  case refine_4 =>
    intro u hm huu
    rcases mem_set hm with rfl | ⟨k, hkj, hk⟩
    · simp [PreviewThread.inUse] at huu
    · have hu' := (PreviewThread.inUse_iff.mp huu).left
      simpa [h.other_obj ht hl hk hu' hkj] using h.waits u (List.mem_of_getElem? hk) huu
  case refine_5 =>
    intro u hm hu
    rcases mem_set hm with rfl | ⟨k, -, hk⟩
    · exact h.node t (List.mem_of_getElem? ht) hl
    · exact h.node u (List.mem_of_getElem? hk) hu

theorem last (h : Inv args p) (ht : p.threads[j]? = some t) (hp : t.pc = .last) :
    Inv args { p with threads := p.threads.set j { t with pc := .ended } } := by
  have hl : t.live := by simp [PreviewThread.live, hp]
  refine ⟨⟨h.single_set ht rfl hl, h.lost, h.fault, h.stray⟩, ?_, ?_, ?_, ?_, ?_⟩
  case refine_1 =>
    exact h.owns.mono (fun _ => id) fun i c hc =>
      ⟨hc.left, fun hf => hc.right (freed_set ht (fun _ => by simp [hp]) hf)⟩
  case refine_2 =>
    intro u hm hu hou
    rcases mem_set hm with rfl | ⟨k, -, hk⟩
    · cases hu
    · exact h.held u (List.mem_of_getElem? hk) hu hou
  case refine_3 =>
    intro u hm hu
    rcases mem_set hm with rfl | ⟨k, -, hk⟩
    · cases hu
    · exact h.freed u (List.mem_of_getElem? hk) hu
  case refine_4 =>
    intro u hm huu
    rcases mem_set hm with rfl | ⟨k, -, hk⟩
    · simp [PreviewThread.inUse] at huu
    · exact h.waits u (List.mem_of_getElem? hk) huu
  case refine_5 =>
    intro u hm hu
    rcases mem_set hm with rfl | ⟨k, -, hk⟩
    · cases hu
    · exact h.node u (List.mem_of_getElem? hk) hu

theorem step (h : Inv args p) (ht : p.threads[j]? = some t)
    (e : t.step x preview (args t.obj) p.shm = some (t', args', shm)) :
    Inv (Function.update args t.obj args')
      { p with shm := shm, threads := p.threads.set j t' } := by
  have hl : t.live := by
    simp only [PreviewThread.live, decide_eq_true_eq]
    intro hp
    simp only [PreviewThread.step, hp] at e
    cases e
  cases hp : t.pc
  case free =>
    simp only [PreviewThread.step, hp] at e
    cases e
    rw [Function.update_eq_self]
    exact h.shmFree ht hp
  case null =>
    simp only [PreviewThread.step, hp] at e
    cases e
    exact h.null ht hp
  case last =>
    simp only [PreviewThread.step, hp] at e
    cases e
    rw [Function.update_eq_self]
    exact h.last ht hp
  case ended => simp [PreviewThread.live, hp] at hl
  all_goals
    have hu : t.inUse := by simp [PreviewThread.inUse, hp]
    have hm := List.mem_of_getElem? ht
    have hh := h.held t hm hl (by simp [hp])
    have hv := h.valid hh.left (h.not_freed hm hl (by simp [hp]))
    obtain ⟨rfl, hk⟩ := PreviewThread.step_kept hh.right hv hu (by simp [hp]) e
    rw [Function.update_eq_self]
    exact h.set ht hu (PreviewThread.step_fixed e) hk

-- A step of a thread neither loses a stop nor strays.
theorem lost_stray (h : Inv args p) (ht : p.threads[j]? = some t) :
    (p.lost || t.pc = .running && p.stopped t.obj) = p.lost ∧
      (p.stray || t.usesNode && !t.node) = p.stray := by
  have hm := List.mem_of_getElem? ht
  constructor
  · by_cases hp : t.pc = .running
    case pos =>
      have hw := h.waits t hm (by simp [PreviewThread.inUse, hp])
      simp [(hw.starting (by simp [PreviewThread.starting, hp])).left]
    case neg => simp [hp]
  · cases hu : t.usesNode
    case false => simp
    case true =>
      have hl : t.live := by
        simp only [PreviewThread.usesNode, List.mem_cons, not_or, decide_eq_true_eq] at hu
        simpa [PreviewThread.live] using hu.right.right.right.right.left
      simp [h.node t hm hl]

end

end Inv

end PreviewProc
