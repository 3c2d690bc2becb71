import Aiotc.Shm.Delivery

-- ffmpeg.cpp: the frames that `read_video_packet` hands to the preview threads.

namespace Delivery

variable {β : Type}

-- No thread is handed a frame twice, and a frame leaves the queue only when each was handed it.
structure Once (s : State β) : Prop where
  nodup  : ∀ fs ∈ s.received, fs.Nodup
  handed : ∀ f ∈ s.accepted, f ∉ s.queued → ∀ fs ∈ s.received, f ∈ fs

-- A thread looks for a frame only while it has not been handed the first that is queued.
def Fresh (s : State β) : Label β → Prop
  | .take i => ∀ fs ∈ s.received[i]?, ∀ f ∈ s.queued.head?, f ∉ fs
  | _       => True

variable {s s' : State β} {l : Label β} {i : Nat}

theorem Order.once (h : Order s) : Once s where
  nodup fs hf := h.nodup.sublist (h.received fs hf).sublist
  handed _ hf hq := h.handed hf hq

-- The first frame is the one that is found, as its `frameId` is positive.
theorem Order.head_taken (h : Order s) {us vs : List (Addr × NodeData (ShmFrame β))} {a : Addr}
    {d : NodeData (ShmFrame β)} (hq : s.rs.queue = us ++ (a, d) :: vs)
    (hle : ∀ x ∈ us, x.2.name.frameId ≤ 0) : us = [] := by
  cases us
  case nil => rfl
  case cons x us =>
    have ha := h.getElem?_queue (k := 0) (x := x) (by simp [hq])
    have := h.positive _ (List.mem_of_getElem? ha)
    have := hle x List.mem_cons_self
    omega

-- In terms of the schedule: of the frames that the thread was handed none is still queued. Between
-- two calls that find a frame the first frame of the queue has to be removed.
theorem Order.fresh_take_iff (h : Order s) {fs : List (ShmFrame β)}
    (hi : s.received[i]? = some fs) (hq : s.queued ≠ []) :
    Fresh s (.take i) ↔ fs.length = s.dropped := by
  have hm := List.mem_of_getElem? hi
  have hle := h.dropped _ (List.mem_of_getElem? (pos_getElem? hi))
  obtain ⟨f, fs', hf⟩ := List.exists_cons_of_ne_nil hq
  have hd : s.accepted[s.dropped]? = some f := by
    rw [← Nat.add_zero s.dropped, ← List.getElem?_drop, ← h.queued, hf]
    rfl
  have hfs : f ∉ fs ↔ fs.length = s.dropped := by
    rw [h.mem_received hm hd]
    omega
  simp [Fresh, hi, hf, hfs]

theorem Step.order_of_fresh (h : Order s) (hf : Fresh s l) (e : Step readVideoPacket s l s') :
    Order s' := by
  apply Step.order h ?_ e
  rintro i fs us a d vs rfl hi hq hle -
  cases h.head_taken hq hle
  have hd : s.accepted[s.dropped]? = some d.name :=
    h.getElem?_queue (k := 0) (x := (a, d)) (by simp [hq])
  have hle := h.dropped _ (List.mem_of_getElem? (pos_getElem? hi))
  have hnot : d.name ∉ fs := hf fs hi d.name (by simp [State.queued, hq])
  rw [h.mem_received (List.mem_of_getElem? hi) hd] at hnot
  simp only [List.length_nil]
  omega

-- Otherwise the thread is handed that frame again.
theorem Step.fresh (h : Order s) (e : Step readVideoPacket s l s') (ho : Once s') :
    Fresh s l := by
  cases l <;> try trivial
  case take i =>
    intro fs hi f hf
    obtain ⟨x, hx, rfl⟩ : ∃ x, s.rs.queue.head? = some x ∧ x.2.name = f := by
      simpa [State.queued] using hf
    have hd : s.accepted[s.dropped]? = some x.2.name :=
      h.getElem?_queue (k := 0) (x := x) (List.head?_eq_getElem? ▸ hx)
    have hpos := h.positive _ (List.mem_of_getElem? hd)
    obtain ⟨fs', hi', h' | ⟨us, a, d, vs, rs, hq, hle, -, -, -, -, -, rfl⟩⟩ := take_cases e
    case inl =>
      have : x.2.name.frameId ≤ 0 := h'.left x (List.mem_of_mem_head? hx)
      omega
    case inr =>
      cases hi.symm.trans hi'
      cases h.head_taken hq hle
      have hd : (a, d) = x := by simpa [hq] using hx
      have hl := (List.getElem?_eq_some_iff.mp hi).choose
      have hn := ho.nodup (fs ++ [d.name]) (List.mem_set hl _)
      rw [← hd]
      exact fun hm => List.disjoint_of_nodup_append hn hm (List.mem_singleton_self _)

-- Each frame reaches each thread once in exactly those runs in which no thread looks for a frame
-- while the first one is still queued for another.
theorem once_iff_fresh {type : CStr} {n : Nat} {tr : List (State β × Label β)}
    (r : Run (Step readVideoPacket) (joined type n) tr s) :
    Run.Always Once tr s ↔ Run.Meets Fresh tr :=
  r.always_iff_meets (fun _ _ _ h hf e => e.order_of_fresh h hf) (fun _ h => h.once)
    (fun _ _ _ h e ho => e.fresh h ho) (joined_order type n)

section

def video (frameId : Int) : Readers.Write Unit :=
  ⟨(), 4, frameId, 101, 25⟩

-- Two threads, both of which are handed a frame.
def inTurn : List (Label Unit) := [
  .malloc 64 (video 1), .put 64 (some 128), .take 0, .take 1, .finish 0, .finish 1, .finish 1,
  .finish 1]

theorem once_iff_fresh_witness :
    ∃ s, Run (Step readVideoPacket) (joined "video" 2)
        (Run.partialTrace (exec readVideoPacket) inTurn (joined "video" 2)) s ∧
      Run.Always Once (Run.partialTrace (exec readVideoPacket) inTurn (joined "video" 2)) s ∧
      s.received.map (·.map ShmFrame.frameId) = [[1], [1]] := by
  have r := Run.of_partialTrace (exec readVideoPacket) inTurn (joined "video" 2) rfl
  refine ⟨_, r, (once_iff_fresh r).mpr ?_, rfl⟩
  refine Run.meets_cons.mpr ⟨trivial, Run.meets_cons.mpr ⟨trivial, Run.meets_cons.mpr ⟨?_,
    Run.meets_cons.mpr ⟨?_, ?_⟩⟩⟩⟩
  · rintro fs ⟨⟩ f -
    exact List.not_mem_nil
  · rintro fs ⟨⟩ f -
    exact List.not_mem_nil
  · iterate 4 refine Run.meets_cons.mpr ⟨trivial, ?_⟩
    exact Run.meets_nil

-- The first of two threads is handed the same frame twice, and the other never.
theorem handed_twice :
    ¬∀ (type : CStr) (n : Nat), 1 ≤ n → ∀ (tr : List (State Unit × Label Unit)) (s : State Unit),
      Run (Step readVideoPacket) (joined type n) tr s → Once s := by
  intro h
  have r := Run.of_partialTrace (exec readVideoPacket)
    [.malloc 64 (video 1), .put 64 (some 128), .take 0, .finish 0, .take 0] (joined "video" 2) rfl
  have hn := (h _ _ (by decide) _ _ r).nodup _ List.mem_cons_self
  exact (List.nodup_cons.mp hn).left List.mem_cons_self

end

end Delivery
