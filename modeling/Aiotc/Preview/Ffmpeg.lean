import Aiotc.Library.Goto
import Aiotc.Share.Json
import Aiotc.Share.QueueCommon
import Mathlib.Data.List.Basic

-- ffmpeg.cpp: what a preview opens, and how the two preview threads close it.

open Goto

namespace Ffmpeg

-- What a preview has to give back.
inductive Resource
  | input
  | output
  | buffer
  | avio
  deriving DecidableEq

-- The input context is released by `avformat_close_input`, and by an `avformat_open_input` that
-- fails. The others are released by `avformat_free_context` and `av_freep`.
inductive Call
  | writeHeader (ctx : Ptr) (ok : Bool)
  | writeTrailer (ctx : Ptr)
  | avioClose
  | release (r : Resource)
  deriving DecidableEq

structure Avio where
  ctx : Addr
  buffer : Addr

-- `previewFFmpeg` and the `videoindex` of `previewParams`, with the calls that were made so far.
-- `noFile` is the flag of `ofmt_v`.
structure State where
  ifmtCtx : Ptr := none
  ofmtCtxV : Ptr := none
  noFile : Bool := false
  avio : Option Avio := none
  videoindex : Int := -1
  calls : List Call := []

structure Stream where
  video : Bool
  newStream : Bool
  copyContext : Bool

-- What the calls of `previewInit` return. A pointer is `none` where the call fails, `streamOk` is
-- false where the preview is stopped while it waits, and `noFile` is the flag of the output format.
structure Outcome where
  malloc : Bool
  preview : CStr
  dirCheck : Bool
  streamOk : Bool
  aviobuffer : Ptr
  ifmtCtx : Ptr
  avio : Ptr
  openInput : Bool
  findStreamInfo : Bool
  ofmtCtxV : Ptr
  noFile : Bool
  streams : List Stream
  avioOpen : Bool
  writeHeader : Bool

namespace State

def call (c : Call) (s : State) : State :=
  { s with calls := s.calls ++ [c] }

end State

def freePrewFFmpeg (s : State) : State :=
  let s := if s.videoindex ≠ -1 then s.call (.writeTrailer s.ofmtCtxV) else s
  let s := if s.ifmtCtx ≠ none then { s.call (.release .input) with ifmtCtx := none } else s
  let s := if s.ofmtCtxV ≠ none ∧ s.noFile = false then s.call .avioClose else s
  let s := if s.ofmtCtxV ≠ none then { s.call (.release .output) with ofmtCtxV := none } else s
  match s.avio with
  | some _ => { (s.call (.release .buffer)).call (.release .avio) with avio := none }
  | none   => s

-- `previewInit` up to the loop over the streams.
def openContexts (o : Outcome) : Except State State := do
  let s : State := {}
  orEnd (o.preview = "hls" ∧ o.dirCheck ∨ o.preview = "http-flv") s
  orEnd o.streamOk s
  let buffer ← notNull o.aviobuffer s
  let ifmtCtx ← notNull o.ifmtCtx s
  let s := { s with ifmtCtx := some ifmtCtx }
  let avio ← notNull o.avio s
  let s := { s with avio := some ⟨avio, buffer⟩ }
  orEnd o.openInput { s.call (.release .input) with ifmtCtx := none }
  orEnd o.findStreamInfo s
  let ofmtCtxV ← notNull o.ofmtCtxV s
  return { s with ofmtCtxV := some ofmtCtxV, noFile := o.noFile }

def copyStreams (i : Int) : List Stream → State → Except State State
  | [], s            => return s
  | stream :: l, s => do
    orEnd stream.video s
    let s := { s with videoindex := i }
    orEnd stream.newStream s
    orEnd stream.copyContext s
    copyStreams (i + 1) l s

-- `previewInit` behind the loop. Without a stream there is no header.
def openOutput (o : Outcome) (s : State) : Except State State := do
  orEnd (s.noFile || o.avioOpen) s
  if s.videoindex ≠ -1 then
    let s := s.call (.writeHeader s.ofmtCtxV o.writeHeader)
    orEnd o.writeHeader s
    return s
  else
    return s

def openAll (o : Outcome) : Except State State := do
  let s ← openContexts o
  let s ← copyStreams 0 o.streams s
  openOutput o s

-- `prewFFmpeg` is NULL where it cannot be allocated.
def previewInit (o : Outcome) : Int × Option State :=
  if o.malloc then
    match openAll o with
    | .ok s    => (0, some s)
    | .error s => (-1, some (freePrewFFmpeg s))
  else
    (-1, none)

def previewUnInit (s : Option State) : Option State :=
  s.map freePrewFFmpeg

inductive Thread
  | hls
  | httpflv

-- The threads from `previewInit` on. `previewLoop`, which comes in between, makes none of these
-- calls.
def hlsThread (o : Outcome) : Option State :=
  let (_, s) := previewInit o
  previewUnInit s

def httpflvThread (o : Outcome) : Option State :=
  let (ret, s) := previewInit o
  if ret = 0 then previewUnInit s else s

namespace Thread

def run (t : Thread) (o : Outcome) : Option State :=
  match t with
  | hls     => hlsThread o
  | httpflv => httpflvThread o

def calls (t : Thread) (o : Outcome) : List Call :=
  ((t.run o).map State.calls).getD []

end Thread

def Call.isTrailer : Call → Bool
  | .writeTrailer _ => true
  | _               => false

structure Clean (calls : List Call) : Prop where
  header   : ∀ l ctx r, calls = l ++ .writeTrailer ctx :: r →
    ctx ≠ none ∧ .writeHeader ctx true ∈ l
  trailer  : calls.countP Call.isTrailer ≤ 1
  released : ∀ r, calls.count (.release r) ≤ 1

def Stream.copied (s : Stream) : Bool :=
  s.video ∧ s.newStream ∧ s.copyContext

namespace Outcome

-- What comes before the streams is there.
def opened (o : Outcome) : Bool :=
  (o.preview = "hls" ∧ o.dirCheck ∨ o.preview = "http-flv") ∧ o.streamOk ∧ o.aviobuffer ≠ none ∧
    o.ifmtCtx ≠ none ∧ o.avio ≠ none ∧ o.openInput ∧ o.findStreamInfo ∧ o.ofmtCtxV ≠ none

def hasVideo (o : Outcome) : Bool :=
  o.streams.head?.any Stream.video

def completed (o : Outcome) : Bool :=
  o.streams.all Stream.copied ∧ (o.noFile ∨ o.avioOpen) ∧ o.writeHeader

end Outcome

section

variable {s : State} {o : Outcome}

namespace State

@[simp]
theorem call_calls (c : Call) (s : State) : (s.call c).calls = s.calls ++ [c] :=
  rfl

@[simp]
theorem call_videoindex (c : Call) (s : State) : (s.call c).videoindex = s.videoindex :=
  rfl

def holds (s : State) : Resource → Bool
  | .input          => s.ifmtCtx.isSome
  | .output         => s.ofmtCtxV.isSome
  | .buffer | .avio => s.avio.isSome

-- What was released is not held any more.
def Held (s : State) : Prop :=
  ∀ r, s.calls.count (.release r) + (s.holds r).toNat ≤ 1

def trailer (s : State) : List Call :=
  if s.videoindex = -1 then [] else [.writeTrailer s.ofmtCtxV]

def releases (s : State) : List Call :=
  (if s.ifmtCtx.isSome then [.release .input] else []) ++
    (if s.ofmtCtxV.isSome ∧ s.noFile = false then [.avioClose] else []) ++
    (if s.ofmtCtxV.isSome then [.release .output] else []) ++
    if s.avio.isSome then [.release .buffer, .release .avio] else []

theorem count_releases (s : State) (r : Resource) :
    s.releases.count (.release r) = (s.holds r).toNat := by
  simp only [releases, List.count_append]
  cases r <;> cases hi : s.ifmtCtx <;> cases ho : s.ofmtCtxV <;> cases ha : s.avio <;>
    cases hn : s.noFile <;> simp [holds, *]

end State

theorem freePrewFFmpeg_eq (s : State) : freePrewFFmpeg s =
    { ifmtCtx := none, ofmtCtxV := none, noFile := s.noFile, avio := none
      videoindex := s.videoindex, calls := s.calls ++ s.trailer ++ s.releases } := by
  obtain ⟨ifmtCtx, ofmtCtxV, noFile, avio, videoindex, calls⟩ := s
  by_cases hv : videoindex = -1 <;> cases ifmtCtx <;> cases ofmtCtxV <;> cases avio <;>
    cases noFile <;> simp [freePrewFFmpeg, State.call, State.trailer, State.releases, hv]

theorem State.Held.freePrewFFmpeg (h : s.Held) : (freePrewFFmpeg s).Held := by
  intro r
  have hr := h r
  have ht : s.trailer.count (.release r) = 0 := by
    rw [State.trailer]
    split <;> simp
  rw [freePrewFFmpeg_eq]
  simp only [List.count_append, State.count_releases, ht]
  cases r <;> simpa [State.holds] using hr

theorem countP_releases (s : State) : s.releases.countP Call.isTrailer = 0 := by
  simp only [List.countP_eq_zero, State.releases]
  intro c hc
  simp only [List.mem_append] at hc
  obtain ((hc | hc) | hc) | hc := hc <;> split at hc <;> simp at hc <;> rcases hc with rfl | rfl <;>
    simp [Call.isTrailer]

-- No call of the muxer has been made, and nothing was released twice.
structure Early (s : State) : Prop where
  held       : s.Held
  videoindex : s.videoindex = -1
  released   : ∀ c ∈ s.calls, ∃ r, c = .release r

-- What the loop over the streams finds.
structure Opened (o : Outcome) (s : State) : Prop where
  videoindex : s.videoindex = -1
  ofmtCtxV   : s.ofmtCtxV ≠ none
  noFile     : s.noFile = o.noFile
  calls      : s.calls = []

theorem held_of_calls (h : s.calls = []) : s.Held := by
  intro r
  simpa [h] using Bool.toNat_le (s.holds r)

theorem early_of_calls (hv : s.videoindex = -1) (h : s.calls = []) : Early s where
  held       := held_of_calls h
  videoindex := hv
  released   := by simp [h]

theorem openContexts_ends (o : Outcome) : Ends (fun s => o.opened ∧ Opened o s)
    (fun s => o.opened = false ∧ Early s) (openContexts o) := by
  simp only [openContexts, ends_orEnd, ends_notNull, ends_pure]
  refine ⟨fun hp => ⟨fun hs => ⟨fun _ hb => ⟨fun _ hi => ⟨fun _ ha => ⟨fun ho => ⟨fun hf =>
    ⟨fun _ hv => ?opened, ?_⟩, ?_⟩, ?openInput⟩, ?_⟩, ?_⟩, ?_⟩, ?_⟩, ?_⟩
  case opened    =>
    refine ⟨?_, rfl, nofun, rfl, rfl⟩
    simpa [Outcome.opened, hs, hb, hi, ha, ho, hf, hv] using hp
  case openInput =>
    intro h
    refine ⟨by simp [Outcome.opened, h], ?_, rfl, ?_⟩
    case refine_1 => rintro (_ | _ | _ | _) <;> simp [State.call, State.holds]
    case refine_2 => simp [State.call]
  all_goals
    intro h
    refine ⟨?_, early_of_calls rfl rfl⟩
    simp_all [Outcome.opened]

-- The loop changes `videoindex` only, and does so once it meets video.
structure Indexed (l : List Stream) (s s' : State) : Prop where
  eq         : s' = { s with videoindex := s'.videoindex }
  videoindex : s'.videoindex = -1 ↔ s.videoindex = -1 ∧ l.head?.any Stream.video = false

theorem copyStreams_ends {i : Int} (hi : 0 ≤ i) (l : List Stream) (s : State) :
    Ends (fun s' => l.all Stream.copied ∧ Indexed l s s')
      (fun s' => l.all Stream.copied = false ∧ Indexed l s s') (copyStreams i l s) := by
  induction l generalizing i s
  case nil => exact ⟨rfl, rfl, by simp⟩
  case cons stream l hl =>
    have hne : i ≠ -1 := by omega
    simp only [copyStreams, ends_orEnd]
    refine ⟨fun hv => ⟨fun hn => ⟨fun hc => ?_, ?_⟩, ?_⟩, ?_⟩
    case refine_1 =>
      refine (hl (by omega) _).mono ?_ ?_
      all_goals
        rintro s' ⟨h, he, hv'⟩
        refine ⟨by simp [Stream.copied, *], he, ?_⟩
        simpa [hv, hne] using hv'
    all_goals
      intro h
      refine ⟨by simp [Stream.copied, h], rfl, ?_⟩
      simp [*]

structure Muxed (s : State) : Prop where
  held    : s.Held
  trailer : s.calls.countP Call.isTrailer = 0
  header  : s.videoindex ≠ -1 → s.ofmtCtxV ≠ none ∧ .writeHeader s.ofmtCtxV true ∈ s.calls

structure Unheaded (s : State) : Prop where
  held    : s.Held
  trailer : s.calls.countP Call.isTrailer = 0
  header  : ∀ ctx, .writeHeader ctx true ∉ s.calls

theorem Early.unheaded (h : Early s) : Unheaded s where
  held    := h.held
  trailer := by
    rw [List.countP_eq_zero]
    intro c hc
    obtain ⟨r, rfl⟩ := h.released c hc
    exact Bool.false_ne_true
  header  := by
    intro ctx hc
    obtain ⟨r, hr⟩ := h.released _ hc
    cases hr

-- What the loop over the streams leaves, whether it has come to its end or not.
structure Looped (o : Outcome) (s : State) : Prop where
  videoindex : s.videoindex ≠ -1 ↔ o.hasVideo
  ofmtCtxV   : s.ofmtCtxV ≠ none
  noFile     : s.noFile = o.noFile
  calls      : s.calls = []

theorem Opened.looped {s' : State} (hs : Opened o s) (h : Indexed o.streams s s') :
    Looped o s' where
  videoindex := by
    rw [ne_eq, h.videoindex, Outcome.hasVideo]
    simp [hs.videoindex]
  ofmtCtxV   := by
    rw [h.eq]
    exact hs.ofmtCtxV
  noFile     := by rw [h.eq, ← hs.noFile]
  calls      := by
    rw [h.eq]
    exact hs.calls

theorem Looped.unheaded (h : Looped o s) : Unheaded s where
  held    := held_of_calls h.calls
  trailer := by rw [h.calls, List.countP_nil]
  header  := by simp [h.calls]

theorem openOutput_ends (h : Looped o s) :
    Ends (fun s' => (o.noFile ∨ o.avioOpen) ∧ (o.hasVideo → o.writeHeader) ∧ Muxed s')
      (fun s' => ¬((o.noFile ∨ o.avioOpen) ∧ o.writeHeader) ∧ (s'.videoindex ≠ -1 ↔ o.hasVideo) ∧
        Unheaded s') (openOutput o s) := by
  have hh : ∀ ok, (s.call (.writeHeader s.ofmtCtxV ok)).Held := by
    intro ok r
    have hr := held_of_calls h.calls r
    cases r <;> simpa [State.call, State.holds] using hr
  rw [openOutput, ends_orEnd, h.noFile]
  refine ⟨fun hn => ?_, fun hn => ⟨?_, h.videoindex, h.unheaded⟩⟩
  case refine_2 => simp_all
  rw [Bool.or_eq_true] at hn
  split
  case isTrue hv =>
    simp only [ends_orEnd, ends_pure]
    refine ⟨fun hw => ⟨hn, fun _ => hw, hh _, ?_, fun _ => ⟨h.ofmtCtxV, ?_⟩⟩,
      fun hw => ⟨?_, h.videoindex, hh _, ?_, ?_⟩⟩ <;>
      simp [State.call, h.calls, hw, Call.isTrailer]
  case isFalse hv =>
    have hu := h.unheaded
    exact ends_pure.mpr ⟨hn, fun hb => absurd (h.videoindex.mpr hb) hv, hu.held, hu.trailer,
      fun hb => absurd hb hv⟩

theorem openAll_ends (o : Outcome) :
    Ends (fun s => (o.opened ∧ o.hasVideo → o.completed) ∧ Muxed s)
      (fun s => (s.videoindex ≠ -1 ↔ o.opened ∧ o.hasVideo ∧ o.completed = false) ∧ Unheaded s)
      (openAll o) := by
  refine Ends.bind ((openContexts_ends o).mono (fun _ h => h) ?_) ?_
  case refine_1 =>
    rintro s ⟨ho, he⟩
    exact ⟨by simp [he.videoindex, ho], he.unheaded⟩
  rintro s ⟨ho, hs⟩
  refine Ends.bind ((copyStreams_ends (Int.le_refl 0) o.streams s).mono (fun _ h => h) ?_) ?_
  case refine_1 =>
    rintro s' ⟨hl, hi⟩
    have h := hs.looped hi
    exact ⟨by simp [h.videoindex, ho, Outcome.completed, hl], h.unheaded⟩
  rintro s' ⟨hl, hi⟩
  refine (openOutput_ends (hs.looped hi)).mono ?_ ?_
  case refine_1 =>
    rintro t ⟨hf, hw, hm⟩
    exact ⟨fun hb => by simp [Outcome.completed, hl, hf, hw hb.right], hm⟩
  case refine_2 =>
    rintro t ⟨hf, hv, hu⟩
    exact ⟨by simp [Outcome.completed, hv, ho, hl, hf], hu⟩

theorem count_freePrewFFmpeg (h : s.Held) (r : Resource) :
    (freePrewFFmpeg s).calls.count (.release r) ≤ 1 :=
  Nat.le_of_add_right_le (h.freePrewFFmpeg r)

theorem countP_freePrewFFmpeg (s : State) : (freePrewFFmpeg s).calls.countP Call.isTrailer =
    s.calls.countP Call.isTrailer + if s.videoindex = -1 then 0 else 1 := by
  simp only [freePrewFFmpeg_eq, List.countP_append, countP_releases, State.trailer]
  split <;> simp [Call.isTrailer]

theorem notMem_of_countP {calls : List Call} (h : calls.countP Call.isTrailer = 0) (ctx : Ptr) :
    .writeTrailer ctx ∉ calls :=
  fun hc => List.countP_eq_zero.mp h _ hc rfl

theorem clean_of_countP {calls : List Call} (h : calls.countP Call.isTrailer = 0)
    (hr : ∀ r, calls.count (.release r) ≤ 1) : Clean calls where
  header   := by
    rintro l ctx r rfl
    exact absurd (List.mem_append_right l List.mem_cons_self) (notMem_of_countP h ctx)
  trailer  := by simp [h]
  released := hr

theorem not_clean {calls : List Call} (h : ∀ ctx, .writeHeader ctx true ∉ calls) (ctx : Ptr)
    (r : List Call) : ¬Clean (calls ++ .writeTrailer ctx :: r) :=
  fun hc => h ctx (hc.header calls ctx r rfl).right

-- There is no trailer but the one that `freePrewFFmpeg` writes.
theorem Muxed.clean (h : Muxed s) : Clean (freePrewFFmpeg s).calls := by
  by_cases hv : s.videoindex = -1
  case pos =>
    refine clean_of_countP ?_ (count_freePrewFFmpeg h.held)
    simp [countP_freePrewFFmpeg, h.trailer, hv]
  case neg =>
    refine ⟨?_, ?_, count_freePrewFFmpeg h.held⟩
    case refine_2 => simp [countP_freePrewFFmpeg, h.trailer, hv]
    intro l ctx r he
    simp only [freePrewFFmpeg_eq, State.trailer, if_neg hv, List.append_assoc,
      List.singleton_append] at he
    rw [List.append_cons_inj_of_notMem (notMem_of_countP h.trailer ctx)
      (notMem_of_countP (countP_releases s) ctx)] at he
    obtain ⟨rfl, ⟨rfl⟩, rfl⟩ := he
    exact h.header hv

theorem Unheaded.clean (h : Unheaded s) :
    (Clean (freePrewFFmpeg s).calls ↔ s.videoindex = -1) ∧
      (Clean (freePrewFFmpeg (freePrewFFmpeg s)).calls ↔ s.videoindex = -1) := by
  have hf := h.held.freePrewFFmpeg
  by_cases hv : s.videoindex = -1
  case pos =>
    have hv' : (freePrewFFmpeg s).videoindex = -1 := by rw [freePrewFFmpeg_eq, hv]
    refine ⟨iff_of_true (clean_of_countP ?_ (count_freePrewFFmpeg h.held)) hv,
      iff_of_true (clean_of_countP ?_ (count_freePrewFFmpeg hf)) hv⟩ <;>
      simp [countP_freePrewFFmpeg, h.trailer, hv, hv']
  case neg =>
    refine ⟨iff_of_false ?_ hv, iff_of_false ?_ hv⟩ <;>
      simp only [freePrewFFmpeg_eq, State.trailer, if_neg hv, List.append_assoc,
        List.singleton_append] <;> exact not_clean h.header _ _

theorem calls_of_malloc (hm : o.malloc = false) (t : Thread) : t.calls o = [] := by
  cases t <;> simp [Thread.calls, Thread.run, hlsThread, httpflvThread, previewInit, previewUnInit,
    hm]

theorem calls_of_ok (hm : o.malloc) (hs : openAll o = .ok s) (t : Thread) :
    t.calls o = (freePrewFFmpeg s).calls := by
  cases t <;> simp [Thread.calls, Thread.run, hlsThread, httpflvThread, previewInit, previewUnInit,
    hm, hs]

-- `hls_thread` cleans up once more what `previewInit` has cleaned up.
theorem calls_of_error (hm : o.malloc) (hs : openAll o = .error s) (t : Thread) :
    t.calls o = match t with
      | .hls     => (freePrewFFmpeg (freePrewFFmpeg s)).calls
      | .httpflv => (freePrewFFmpeg s).calls := by
  cases t <;> simp [Thread.calls, Thread.run, hlsThread, httpflvThread, previewInit, previewUnInit,
    hm, hs]

-- Whatever fails, nothing is released twice.
theorem count_release_le (t : Thread) (o : Outcome) (r : Resource) :
    (t.calls o).count (.release r) ≤ 1 := by
  cases hm : o.malloc
  case false => simp [calls_of_malloc hm]
  case true  =>
    have ha := openAll_ends o
    cases hs : openAll o <;> rw [hs] at ha
    case ok s =>
      rw [calls_of_ok hm hs]
      exact count_freePrewFFmpeg ha.right.held r
    case error s =>
      have hh := ha.right.held
      rw [calls_of_error hm hs]
      cases t
      case hls     => exact count_freePrewFFmpeg hh.freePrewFFmpeg r
      case httpflv => exact count_freePrewFFmpeg hh r

theorem clean_iff (t : Thread) (o : Outcome) :
    Clean (t.calls o) ↔ (o.malloc ∧ o.opened ∧ o.hasVideo → o.completed) := by
  cases hm : o.malloc
  case false =>
    refine iff_of_true (clean_of_countP ?_ (count_release_le t o)) nofun
    rw [calls_of_malloc hm, List.countP_nil]
  case true =>
    have ha := openAll_ends o
    cases hs : openAll o <;> rw [hs] at ha
    case ok s =>
      rw [calls_of_ok hm hs]
      exact iff_of_true ha.right.clean fun h => ha.left h.right
    case error s =>
      obtain ⟨hv, hu⟩ := ha
      have hi : Clean (t.calls o) ↔ s.videoindex = -1 := by
        rw [calls_of_error hm hs]
        cases t
        case hls     => exact hu.clean.right
        case httpflv => exact hu.clean.left
      rw [hi, ← not_iff_not, ← ne_eq, hv]
      simp

end

-- One stream of video, of which the header cannot be written.
def noHeader : Outcome where
  malloc := true
  preview := "hls"
  dirCheck := true
  streamOk := true
  aviobuffer := some 1
  ifmtCtx := some 2
  avio := some 3
  openInput := true
  findStreamInfo := true
  ofmtCtxV := some 4
  noFile := true
  streams := [⟨true, true, true⟩]
  avioOpen := true
  writeHeader := false

theorem not_clean_noHeader : ¬∀ t o, Clean (Thread.calls t o) := by
  intro h
  have hc : Thread.hls.calls noHeader = [.writeHeader (some 4) false, .writeTrailer (some 4),
      .release .input, .release .output, .release .buffer, .release .avio, .writeTrailer none] := by
    decide
  have hh := (h .hls noHeader).header [.writeHeader (some 4) false] (some 4) _ hc
  exact absurd hh.right (by decide)

end Ffmpeg
