import Aiotc.Library.Run
import Aiotc.Shm.Basic

-- hls.cpp (and httpflv.cpp): threads that read the frames of a camera. Objects are given by the
-- addresses of their `objParam`.

open Shm

-- Of the `cameraParams` of an object what belongs to its video.
structure CameraParams where
  videoShm : Option Nat := none
  videoFrameId : Int := 0

def ccLiveStream : Int := 101

namespace Preview

-- What `rtsp_callback` was called with, and for which object.
structure Written where
  obj : Addr
  buf : List UInt8
  deriving DecidableEq

-- Where a `hls_thread` is: before its calls of `allocVideoShm` and `setShmUser(1)`, in
-- `previewLoop`, behind `setShmUser(0)`, before `releaseShm`, and behind it. `b` is its
-- `pVideoShm`.
inductive Pc
  | alloc
  | join (b : Nat)
  | loop (b : Nat)
  | check (b : Nat)
  | release (b : Nat)
  | ended

-- `frame` is the last frame that a thread has read.
structure Thread where
  obj : Addr
  pc : Pc := .alloc
  frame : Option Written := none

structure State where
  shms : List (ShmParam Written)
  cameras : Addr → CameraParams := fun _ => {}
  threads : List Thread := []

namespace State

def updateShm (b : Nat) (f : ShmParam Written → ShmParam Written) (s : State) : State :=
  { s with shms := s.shms.modify b f }

def setCamera (obj : Addr) (c : CameraParams) (s : State) : State :=
  { s with cameras := Function.update s.cameras obj c }

def setPc (i : Nat) (pc : Pc) (s : State) : State :=
  { s with threads := s.threads.modify i fun t => { t with pc := pc } }

end State

def allocVideoShm (obj : Addr) (s : State) : Int × State :=
  let c := s.cameras obj
  if c.videoShm ≠ none then
    (0, s)
  else
    let (videoShm, shms) := getFreeShm "video" s.shms
    let s := { s with shms := shms }.setCamera obj { c with videoShm := videoShm }
    if videoShm = none then (-1, s) else (0, s)

def rtspCallback (videoQueLen : Int) (obj : Addr) (buf : List UInt8) (ptr node : Ptr)
    (s : State) : State :=
  let c := s.cameras obj
  match c.videoShm with
  | none   => s
  | some b =>
    match s.shms[b]? with
    | none     => s
    | some shm =>
      if shm.queue.useMax > 0 then
        let id := c.videoFrameId + 1
        let s := s.setCamera obj { c with videoFrameId := id }
        s.updateShm b fun shm => (copyToShm ⟨obj, buf⟩ buf.length id ccLiveStream videoQueLen
          ptr node shm).2
      else
        s

-- The next call of a thread outside of `previewLoop`.
def hlsThread (i : Nat) (s : State) : Option State := do
  let t ← s.threads[i]?
  match t.pc with
  | .alloc =>
    let (ret, s) := allocVideoShm t.obj s
    if ret ≠ 0 then
      return s.setPc i .ended
    else
      let b ← (s.cameras t.obj).videoShm
      return s.setPc i (.join b)
  | .join b    => return (s.updateShm b (setShmUser 1)).setPc i (.loop b)
  | .loop b    => return (s.updateShm b (setShmUser 0)).setPc i (.check b)
  | .check b   =>
    let shm ← s.shms[b]?
    return s.setPc i (if shm.queue.useMax = 0 then .release b else .ended)
  | .release b => return (s.updateShm b releaseShm).setPc i .ended
  | .ended      => none

-- The part of `read_video_packet` that takes a frame. It looks `videoShm` up again.
def readVideoPacket (i : Nat) (s : State) : Option State := do
  let t ← s.threads[i]?
  match t.pc with
  | .loop _ =>
    let b ← (s.cameras t.obj).videoShm
    let shm ← s.shms[b]?
    let (taken, shm) := copyFromShmWithUser 0 shm
    let frame := (taken.map fun p => p.frame.buf).or t.frame
    let threads := s.threads.modify i fun t => { t with frame := frame }
    return { s.updateShm b fun _ => shm with threads := threads }
  | _       => none

inductive Label
  | start (obj : Addr)
  | next (i : Nat)
  | read (i : Nat)
  | frame (obj : Addr) (buf : List UInt8) (ptr node : Ptr)

def exec (videoQueLen : Int) : Label → State → Option State
  | .start obj, s              => some { s with threads := s.threads ++ [{ obj := obj }] }
  | .next i, s                 => hlsThread i s
  | .read i, s                 => readVideoPacket i s
  | .frame obj buf ptr node, s => some (rtspCallback videoQueLen obj buf ptr node s)

def Step (videoQueLen : Int) (s : State) (l : Label) (s' : State) : Prop :=
  exec videoQueLen l s = some s'

-- No two objects write to and read from one buffer, and what the threads of an object have read
-- was written for this object.
structure Separate (s : State) : Prop where
  videoShm : ∀ o o' b, (s.cameras o).videoShm = some b → (s.cameras o').videoShm = some b → o = o'
  frame    : ∀ t ∈ s.threads, ∀ w, t.frame = some w → w.obj = t.obj

-- Where `allocVideoShm` asks for a buffer, no object still points to the one that `getFreeShm`
-- finds. An object whose preview is over counts as well: `rtsp_callback` looks at the pointer and
-- at `useMax` of the buffer only.
def Revoked (s : State) : Label → Prop
  | .next i => ∀ t, s.threads[i]? = some t → t.pc = .alloc → (s.cameras t.obj).videoShm = none →
    ∀ b, (getFreeShm "video" s.shms).1 = some b → ∀ o, (s.cameras o).videoShm ≠ some b
  | _       => True

def Queued (s : State) (b : Nat) (w : Written) : Prop :=
  ∃ shm, s.shms[b]? = some shm ∧ ∃ x ∈ shm.queue.nodes, x.2.name.buf = w

-- Frames are queued where the `videoShm` of their object is.
structure Own (s : State) : Prop extends Separate s where
  queued : ∀ b w, Queued s b w → (s.cameras w.obj).videoShm = some b

section

variable {s : State} {b b' i : Nat} {w : Written} {f : ShmParam Written → ShmParam Written}

theorem queued_updateShm (h : Queued (s.updateShm b f) b' w) :
    Queued s b' w ∨ b' = b ∧ ∃ shm, s.shms[b]? = some shm ∧
      ∃ x ∈ (f shm).queue.nodes, x.2.name.buf = w := by
  have ⟨shm', hb, hx⟩ := h
  simp only [State.updateShm, List.getElem?_modify, Option.map_eq_map,
    Option.map_eq_some_iff] at hb
  obtain ⟨shm, hb, rfl⟩ := hb
  by_cases hbb : b = b'
  case pos =>
    subst hbb
    exact .inr ⟨rfl, shm, hb, by simpa using hx⟩
  case neg => exact .inl ⟨shm, hb, by simpa [hbb] using hx⟩

-- A buffer whose queue only gets shorter.
theorem queued_of_updateShm
    (hf : ∀ shm, ∀ x ∈ (f shm).queue.nodes, ∃ y ∈ shm.queue.nodes, y.2.name = x.2.name)
    (h : Queued (s.updateShm b f) b' w) : Queued s b' w := by
  rcases queued_updateShm h with h | ⟨rfl, shm, hb, x, hx, rfl⟩
  · exact h
  · have ⟨y, hy, hn⟩ := hf shm x hx
    exact ⟨shm, hb, y, hy, by rw [hn]⟩

theorem mem_setPc {pc : Pc} {t : Thread} (h : t ∈ (s.setPc i pc).threads) :
    ∃ t' ∈ s.threads, t'.obj = t.obj ∧ t'.frame = t.frame := by
  have ⟨j, hj⟩ := List.mem_iff_getElem?.mp h
  simp only [State.setPc, List.getElem?_modify, Option.map_eq_map, Option.map_eq_some_iff] at hj
  obtain ⟨t', hj, rfl⟩ := hj
  exact ⟨t', List.mem_of_getElem? hj, by split <;> exact ⟨rfl, rfl⟩⟩

theorem Own.setPc (h : Own s) {pc : Pc} : Own (s.setPc i pc) where
  videoShm := h.videoShm
  frame t ht w hw := by
    have ⟨t', ht', ho, hf⟩ := mem_setPc ht
    exact (h.frame t' ht' w (hf.trans hw)).trans ho
  queued := h.queued

theorem Own.updateShm (h : Own s)
    (hf : ∀ shm, ∀ x ∈ (f shm).queue.nodes, ∃ y ∈ shm.queue.nodes, y.2.name = x.2.name) :
    Own (s.updateShm b f) where
  videoShm := h.videoShm
  frame    := h.frame
  queued b' w hq := h.queued b' w (queued_of_updateShm hf hq)

end

variable {s s' : State} {i : Nat} {obj : Addr} {b : Nat}

theorem queued_getFreeShm {w : Written} {type : CStr}
    (h : Queued { s with shms := (getFreeShm type s.shms).2 } b w) : Queued s b w := by
  have ⟨shm', hb, hx⟩ := h
  have ⟨shm, hb, hq⟩ := getFreeShm_nodes hb
  exact ⟨shm, hb, hq ▸ hx⟩

-- Where the object has a buffer already `allocVideoShm` does nothing. Otherwise it depends on what
-- it finds.
theorem allocVideoShm_cached (hc : (s.cameras obj).videoShm = some b) :
    allocVideoShm obj s = (0, s) := by
  simp [allocVideoShm, hc]

theorem allocVideoShm_none (hc : (s.cameras obj).videoShm = none) :
    allocVideoShm obj s = (if (getFreeShm "video" s.shms).1 = none then -1 else 0,
      { s with shms := (getFreeShm "video" s.shms).2 }.setCamera obj
        { s.cameras obj with videoShm := (getFreeShm "video" s.shms).1 }) := by
  by_cases hg : (getFreeShm "video" s.shms).1 = none <;> simp [allocVideoShm, hc, hg]

theorem Own.setCamera (h : Own s) (hc : (s.cameras obj).videoShm = none) (v : Option Nat)
    (hv : ∀ b, v = some b → ∀ o, (s.cameras o).videoShm ≠ some b) :
    Own ({ s with shms := (getFreeShm "video" s.shms).2 }.setCamera obj
      { s.cameras obj with videoShm := v }) where
  videoShm o o' b ho ho' := by
    simp only [State.setCamera, Function.update_apply] at ho ho'
    split at ho <;> split at ho'
    case isTrue.isTrue h₁ h₂   => exact h₁.trans h₂.symm
    case isTrue.isFalse        => exact absurd ho' (hv b ho o')
    case isFalse.isTrue        => exact absurd ho (hv b ho' o)
    case isFalse.isFalse h₁ h₂ => exact h.videoShm o o' b ho ho'
  frame := h.frame
  queued b w hq := by
    have hw := h.queued b w (queued_getFreeShm hq)
    have hne : w.obj ≠ obj := fun he => by simp [he, hc] at hw
    simpa [State.setCamera, Function.update_apply, hne] using hw

theorem hlsThread_own (h : Own s) (hr : Revoked s (.next i)) (e : hlsThread i s = some s') :
    Own s' := by
  simp only [hlsThread, bind, Option.bind_eq_some_iff] at e
  have ⟨t, ht, e⟩ := e
  cases hp : t.pc <;> simp only [hp] at e
  case ended => cases e
  case loop b =>
    cases e
    exact (h.updateShm (by simp)).setPc
  case join b =>
    cases e
    exact (h.updateShm (by simp)).setPc
  case release b =>
    cases e
    exact (h.updateShm (by simp)).setPc
  case check b =>
    obtain ⟨shm, -, e⟩ := Option.bind_eq_some_iff.mp e
    cases e
    exact h.setPc
  case alloc =>
    have ha : Own (allocVideoShm t.obj s).2 := by
      cases hc : (s.cameras t.obj).videoShm
      case none => exact allocVideoShm_none hc ▸ h.setCamera hc _ (hr t ht hp hc)
      case some => exact allocVideoShm_cached hc ▸ h
    split at e
    case isTrue =>
      cases e
      exact ha.setPc
    case isFalse =>
      obtain ⟨b, -, e⟩ := Option.bind_eq_some_iff.mp e
      cases e
      exact ha.setPc

theorem readVideoPacket_own (h : Own s) (e : readVideoPacket i s = some s') : Own s' := by
  simp only [readVideoPacket, bind, Option.bind_eq_some_iff] at e
  have ⟨t, ht, e⟩ := e
  split at e
  case h_2 => cases e
  case h_1 =>
    have ⟨b, hb, e⟩ := Option.bind_eq_some_iff.mp e
    have ⟨shm, hs, e⟩ := Option.bind_eq_some_iff.mp e
    cases e
    refine ⟨⟨h.videoShm, fun t' ht' w hw => ?_⟩, fun b' w hq => ?_⟩
    case refine_1 =>
      have ⟨j, hj⟩ := List.mem_iff_getElem?.mp ht'
      simp only [List.getElem?_modify, Option.map_eq_map, Option.map_eq_some_iff] at hj
      obtain ⟨u, hj, rfl⟩ := hj
      by_cases hij : i = j
      case neg =>
        simp only [hij, if_false] at hw ⊢
        exact h.frame u (List.mem_of_getElem? hj) w hw
      case pos =>
        -- The frame was queued in the buffer of the object, so the object has written it.
        subst hij
        cases ht.symm.trans hj
        simp only [if_true, Option.or_eq_some_iff, Option.map_eq_some_iff] at hw ⊢
        rcases hw with ⟨p, hp, rfl⟩ | ⟨-, hw⟩
        · have ⟨y, hy, _, hn, _⟩ := copyFromShmWithUser_some hp
          exact h.videoShm _ _ b (h.queued b _ ⟨shm, hs, y, hy, by rw [hn]⟩) hb
        · exact h.frame t (List.mem_of_getElem? ht) w hw
    case refine_2 =>
      rcases queued_updateShm hq with hq | ⟨rfl, _, _, x, hx, rfl⟩
      · exact h.queued b' w hq
      · have ⟨y, hy, hn⟩ := copyFromShmWithUser_nodes hx
        exact h.queued b' _ ⟨shm, hs, y, hy, by rw [hn]⟩

theorem rtspCallback_own {videoQueLen : Int} {buf : List UInt8} {ptr node : Ptr} (h : Own s) :
    Own (rtspCallback videoQueLen obj buf ptr node s) := by
  simp only [rtspCallback]
  split
  case h_1 => exact h
  case h_2 b hb =>
    split
    case h_1 => exact h
    case h_2 shm hs =>
      split
      case isFalse => exact h
      case isTrue =>
        have hv : ∀ id o, ((s.setCamera obj
            { s.cameras obj with videoFrameId := id }).cameras o).videoShm =
            (s.cameras o).videoShm := by
          intro id o
          simp only [State.setCamera, Function.update_apply]
          split <;> simp_all
        refine ⟨⟨fun o o' b' ho ho' => ?_, h.frame⟩, fun b' w hq => ?_⟩
        case refine_1 =>
          exact h.videoShm o o' b' ((hv _ o).symm.trans ho) ((hv _ o').symm.trans ho')
        case refine_2 =>
          apply (hv _ w.obj).trans
          rcases queued_updateShm hq with hq | ⟨rfl, shm, hs, x, hx, rfl⟩
          · exact h.queued b' w hq
          · rcases copyToShm_nodes hx with hx | hx
            · exact h.queued b' _ ⟨shm, hs, x, hx, rfl⟩
            · rw [hx]
              exact hb

theorem Step.own {videoQueLen : Int} {l : Label} (h : Own s) (hr : Revoked s l)
    (e : Step videoQueLen s l s') : Own s' := by
  cases l
  case next  => exact hlsThread_own h hr e
  case read  => exact readVideoPacket_own h e
  case frame =>
    cases e
    exact rtspCallback_own h
  case start obj =>
    cases e
    refine ⟨⟨h.videoShm, fun t ht w hw => ?_⟩, h.queued⟩
    rcases List.mem_append.mp ht with ht | ht
    · exact h.frame t ht w hw
    · rw [List.mem_singleton.mp ht] at hw
      cases hw

-- A buffer that another object still points to is then the `videoShm` of both.
theorem Step.revoked {videoQueLen : Int} {l : Label} (e : Step videoQueLen s l s')
    (hs : Separate s') : Revoked s l := by
  cases l <;> try trivial
  case next i =>
    intro t ht hp hc b hb o ho
    have hne : o ≠ t.obj := fun he => by simp [he, hc] at ho
    simp only [Step, exec, hlsThread, ht, hp, allocVideoShm_none hc, hb, bind,
      Option.bind_some] at e
    simp only [reduceCtorEq, if_false, ne_eq, not_true, State.setCamera, Function.update_self,
      Option.bind_some, pure, Option.some.injEq] at e
    subst e
    refine hne (hs.videoShm o t.obj b ?_ ?_)
    · simpa [State.setPc, Function.update_apply, hne] using ho
    · simp [State.setPc]

-- Buffers stay separate in exactly those runs in which no buffer is handed out while another
-- object points to it.
theorem separate_iff_revoked {videoQueLen : Int} {videoMax captureMax : Nat}
    {tr : List (State × Label)}
    (r : Run (Step videoQueLen) { shms := initShmArray videoMax captureMax } tr s) :
    Run.Always Separate tr s ↔ Run.Meets Revoked tr := by
  refine r.always_iff_meets (fun _ _ _ h hr e => e.own h hr) (fun _ h => h.toSeparate)
    (fun _ _ _ _ e hs => e.revoked hs) ⟨⟨by simp, by simp⟩, ?_⟩
  rintro b w ⟨shm, hb, x, hx, -⟩
  have hm := List.mem_of_getElem? hb
  simp only [initShmArray, List.mem_append, List.mem_replicate] at hm
  rcases hm with ⟨-, rfl⟩ | ⟨-, rfl⟩ <;> simp at hx

section

-- Two objects, each with its buffer, whose frames are written and read.
def previews : List Label := [
  .start 8, .next 0, .next 0, .start 9, .next 1, .next 1,
  .frame 8 [0, 0, 0, 1] (some 64) (some 128), .frame 9 [0, 0, 0, 1] (some 72) (some 136),
  .read 0, .read 1]

theorem separate_iff_revoked_witness :
    ∃ tr s, Run (Step 25) { shms := initShmArray 2 0 } tr s ∧ Run.Always Separate tr s ∧
      (s.threads.map fun t => t.frame.map Written.obj) = [some 8, some 9] := by
  have r := Run.of_partialTrace (exec 25) previews { shms := initShmArray 2 0 } rfl
  refine ⟨_, _, r, (separate_iff_revoked r).mpr ?_, rfl⟩
  refine Run.meets_cons.mpr ⟨trivial, Run.meets_cons.mpr ⟨?_, Run.meets_cons.mpr ⟨?_,
    Run.meets_cons.mpr ⟨trivial, Run.meets_cons.mpr ⟨?_, Run.meets_cons.mpr ⟨?_, ?_⟩⟩⟩⟩⟩⟩
  · rintro t - - - b - o
    simp
  · rintro t ⟨⟩ ⟨⟩
  · rintro t ⟨⟩ - - b ⟨⟩ o
    -- The object at 8 has the first buffer, and no other object has one.
    change (Function.update (fun _ => ({} : CameraParams)) 8 _ o).videoShm ≠ some 1
    by_cases ho : o = 8
    case pos => simp [ho]
    case neg => simp [ho, Function.update_of_ne]
  · rintro t ⟨⟩ ⟨⟩
  · iterate 4 refine Run.meets_cons.mpr ⟨trivial, ?_⟩
    exact Run.meets_nil

-- The preview of the object at 8 ends and its buffer goes to the object at 9, whose preview then
-- reads what is written for 8.
theorem not_separate :
    ¬∀ (videoQueLen : Int) (videoMax captureMax : Nat) (tr : List (State × Label)) (s : State),
      Run (Step videoQueLen) { shms := initShmArray videoMax captureMax } tr s → Separate s := by
  intro h
  have ⟨s, r, hs⟩ := Run.exists_partialTrace (exec 25)
    [.start 8, .next 0, .next 0, .next 0, .next 0, .next 0, .start 9, .next 1, .next 1,
      .frame 8 [0, 0, 0, 1] (some 64) (some 128), .read 1] { shms := initShmArray 1 0 }
    (fun s => s.threads.any fun t => t.frame.any fun w => w.obj ≠ t.obj) (by decide)
  simp only [List.any_eq_true, Option.any_eq_true, decide_eq_true_eq] at hs
  have ⟨t, ht, w, hw, hne⟩ := hs
  exact hne ((h 25 1 0 _ s r).frame t ht w hw)

end

end Preview
