import Mathlib.Tactic.Ring
import Aiotc.Library.Extents
import Aiotc.Shm.Basic

-- shm.cpp: how the shared memory is divided when the program starts.

-- What a computation with `int` and `long long int` leaves of a number.
def wrap32 (x : Int) : Int :=
  x.bmod (2 ^ 32)

def wrap64 (x : Int) : Int :=
  x.bmod (2 ^ 64)

-- The members of `configParams` from which the sizes are computed.
structure ShmConfig where
  masterEnable : Int
  shmHeadSize : Int
  videoMax : Int
  videoFrameSizeMax : Int
  videoQueLen : Int
  captureMax : Int
  captureFrameSizeMax : Int
  captureQueLen : Int

-- A member of `pShmArray` apart from its queue. `sp` leads from the address to the end of its pool,
-- both relative to the start of the shared memory.
structure ShmSlab where
  type : CStr
  id : Int
  sp : Extent

structure ShmLayout where
  shmTotalSize : Int
  headsp : Extent
  pShmArray : List ShmSlab := []

namespace Shm.Layout

def alignSize : Int :=
  1024 * 1024

def align (total : Int) : Int :=
  wrap64 (wrap64 (total.tdiv alignSize * alignSize) + alignSize)

def shmTotalSize (c : ShmConfig) : Int :=
  let total := c.shmHeadSize
  let total :=
    if c.masterEnable = 0 ∨ c.masterEnable = 2 then
      let video := wrap64 (wrap64 (c.videoFrameSizeMax * c.videoQueLen) * c.videoMax)
      let capture := wrap64 (wrap64 (c.captureFrameSizeMax * c.captureQueLen) * c.captureMax)
      wrap64 (total + wrap64 (video + capture))
    else
      total
  align total

def initHeadShm (shmHeadSize : Int) : Extent :=
  ⟨0, shmHeadSize⟩

-- `shmget` tells if the system has a segment of the size. If not, the program exits.
def shmInit (c : ShmConfig) (shmget : Int → Bool) : Option ShmLayout :=
  if shmget (shmTotalSize c) then
    some { shmTotalSize := shmTotalSize c, headsp := initHeadShm c.shmHeadSize }
  else
    none

-- The variables of the loops of `initShmArray`.
structure Filled where
  pShmArray : List ShmSlab := []
  i : Int := 0
  offset : Int

def initShmSlab (type : CStr) (poolSize : Int) (s : Filled) : Filled :=
  let pShm : ShmSlab := ⟨type, wrap32 (s.i + 1), ⟨s.offset, s.offset + poolSize⟩⟩
  { pShmArray := s.pShmArray ++ [pShm]
    i := wrap32 (s.i + 1)
    offset := wrap64 (s.offset + poolSize) }

-- All allocations in the head pool succeed.
def initShmArray (c : ShmConfig) (p : ShmLayout) : ShmLayout :=
  let videoShmSize := wrap32 (c.videoFrameSizeMax * c.videoQueLen)
  let captureShmSize := wrap32 (c.captureFrameSizeMax * c.captureQueLen)
  let s : Filled := { offset := c.shmHeadSize }
  let s := (initShmSlab "video" videoShmSize)^[c.videoMax.toNat] s
  let s := (initShmSlab "capture" captureShmSize)^[c.captureMax.toNat] s
  { p with pShmArray := s.pShmArray }

-- The values that the configuration can have.
structure Valid (c : ShmConfig) : Prop where
  masterEnable        : c.masterEnable = 0 ∨ c.masterEnable = 1 ∨ c.masterEnable = 2
  shmHeadSize         : 0 < c.shmHeadSize ∧ c.shmHeadSize < 2 ^ 31
  videoMax            : 0 ≤ c.videoMax ∧ c.videoMax < 2 ^ 31
  videoFrameSizeMax   : 0 < c.videoFrameSizeMax ∧ c.videoFrameSizeMax < 2 ^ 31
  videoQueLen         : 0 < c.videoQueLen ∧ c.videoQueLen < 2 ^ 31
  captureMax          : 0 ≤ c.captureMax ∧ c.captureMax < 2 ^ 31
  captureFrameSizeMax : 0 < c.captureFrameSizeMax ∧ c.captureFrameSizeMax < 2 ^ 31
  captureQueLen       : 0 < c.captureQueLen ∧ c.captureQueLen < 2 ^ 31

def sizes (c : ShmConfig) : List Int :=
  List.replicate c.videoMax.toNat (c.videoFrameSizeMax * c.videoQueLen) ++
    List.replicate c.captureMax.toNat (c.captureFrameSizeMax * c.captureQueLen)

def pools (p : ShmLayout) : List Extent :=
  p.headsp :: p.pShmArray.map ShmSlab.sp

-- The head pool and one slab for each camera, all of the sizes that are meant, apart from each
-- other and in the shared memory.
structure Exact (c : ShmConfig) (p : ShmLayout) : Prop where
  sizes  : (pools p).map Extent.size = c.shmHeadSize :: sizes c
  apart  : (pools p).Pairwise Extent.Apart
  inside : ∀ a ∈ pools p, 0 ≤ a.lo ∧ a.hi ≤ p.shmTotalSize

-- The slabs that there are have sizes below 2 ^ 31, and a master has room for them in what its head
-- pool leaves of the last MiB. (For its own header, the slots and two pages `ncx_slab_init` needs
-- more of a pool than this: Slab.Enough.)
structure Sized (c : ShmConfig) : Prop where
  video   : c.videoMax = 0 ∨ c.videoFrameSizeMax * c.videoQueLen < 2 ^ 31
  capture : c.captureMax = 0 ∨ c.captureFrameSizeMax * c.captureQueLen < 2 ^ 31
  room    : c.masterEnable = 1 →
    c.shmHeadSize + (sizes c).sum ≤ (c.shmHeadSize / 2 ^ 20 + 1) * 2 ^ 20

variable {c : ShmConfig} {p : ShmLayout} {shmget : Int → Bool} {type : CStr} {size x y : Int}
  {s : Filled} {n : ℕ}

theorem wrap32_of_lt (h₀ : 0 ≤ x) (h : x < 2 ^ 31) : wrap32 x = x := by
  simp only [wrap32, Int.bmod]
  omega

theorem wrap32_lt (x : Int) : wrap32 x < 2 ^ 31 := by
  simp only [wrap32, Int.bmod]
  omega

theorem wrap64_of_lt (h₀ : 0 ≤ x) (h : x < 2 ^ 63) : wrap64 x = x := by
  simp only [wrap64, Int.bmod]
  omega

theorem align_eq (h₀ : 0 ≤ x) (h : x < 2 ^ 63 - 2 ^ 21) : align x = (x / 2 ^ 20 + 1) * 2 ^ 20 := by
  have hd : x.tdiv alignSize * alignSize = x / 2 ^ 20 * 2 ^ 20 := by
    rw [Int.tdiv_eq_ediv_of_nonneg h₀]
    rfl
  rw [align, hd, wrap64_of_lt (x := x / 2 ^ 20 * 2 ^ 20) (by omega) (by omega), alignSize,
    wrap64_of_lt (by omega) (by omega)]
  omega

-- The loops, for any sizes, and where no offset overflows.

theorem map_size_iterate (type : CStr) (size : Int) (n : ℕ) (s : Filled) :
    ((initShmSlab type size)^[n] s).pShmArray.map (·.sp.size) =
      s.pShmArray.map (·.sp.size) ++ List.replicate n size := by
  induction n generalizing s
  case zero      => simp
  case succ n hi => simp [hi, initShmSlab, List.replicate_succ]

theorem iterate_spec (type : CStr) (n : ℕ) (h₀ : 0 ≤ s.offset) (hs : 0 ≤ size)
    (h : s.offset + n * size < 2 ^ 63) :
    ((initShmSlab type size)^[n] s).pShmArray.map ShmSlab.sp = s.pShmArray.map ShmSlab.sp ++
      Extent.layout s.offset (List.replicate n size) ∧
    ((initShmSlab type size)^[n] s).offset = s.offset + n * size := by
  induction n generalizing s
  case zero      => simp [Extent.layout]
  case succ n hi =>
    have hn : 0 ≤ (n : Int) * size := Int.mul_nonneg (by omega) hs
    have hm : ((n + 1 : ℕ) : Int) * size = n * size + size := by
      push_cast
      ring
    rw [hm] at h ⊢
    have hw : wrap64 (s.offset + size) = s.offset + size := wrap64_of_lt (by omega) (by omega)
    have hi := hi (s := initShmSlab type size s) (by simp [initShmSlab, hw]; omega)
      (by simp [initShmSlab, hw]; omega)
    rw [Function.iterate_succ_apply, hi.left, hi.right]
    simp only [initShmSlab, hw, List.replicate_succ, Extent.layout]
    exact ⟨by simp, by ring⟩

-- The slabs of a kind: how many there are, and their size as it is meant.

theorem mul_bounds (hx : 0 ≤ x ∧ x < 2 ^ 31) (hy : 0 ≤ y ∧ y < 2 ^ 31) :
    0 ≤ x * y ∧ x * y ≤ (2 ^ 31 - 1) * (2 ^ 31 - 1) :=
  ⟨Int.mul_nonneg hx.left hy.left, Int.mul_le_mul (by omega) (by omega) hy.left (by omega)⟩

-- Where the int product overflows, there are no slabs.
structure Fits (m x : Int) : Prop where
  count : 0 ≤ m
  size  : 0 ≤ x
  fits  : m = 0 ∨ x < 2 ^ 31
  bound : 0 ≤ m * x ∧ m * x ≤ (2 ^ 31 - 1) * (2 ^ 31 - 1)

theorem Fits.mk' {m : Int} (hm : 0 ≤ m ∧ m < 2 ^ 31) (hx : 0 ≤ x) (h : m = 0 ∨ x < 2 ^ 31) :
    Fits m x where
  count := hm.left
  size  := hx
  fits  := h
  bound := by
    rcases h with rfl | h
    · rw [Int.zero_mul]
      decide
    · exact mul_bounds hm ⟨hx, h⟩

theorem Fits.iterate {m : Int} (h : Fits m x) (type : CStr) :
    (initShmSlab type (wrap32 x))^[m.toNat] = (initShmSlab type x)^[m.toNat] := by
  rcases h.fits with rfl | hx
  · rfl
  · rw [wrap32_of_lt h.size hx]

theorem Fits.natCast_mul {m : Int} (h : Fits m x) : (m.toNat : Int) * x = m * x := by
  rw [Int.toNat_of_nonneg h.count]

theorem Fits.wrap64 {m : Int} (h : Fits m x) (hx : x ≤ (2 ^ 31 - 1) * (2 ^ 31 - 1)) :
    wrap64 (wrap64 x * m) = m * x := by
  have := h.size
  have := h.bound
  rw [wrap64_of_lt (x := x) (by omega) (by omega), Int.mul_comm, wrap64_of_lt (by omega) (by omega)]

theorem Valid.video (h : Valid c) : 0 ≤ c.videoFrameSizeMax * c.videoQueLen ∧
    c.videoFrameSizeMax * c.videoQueLen ≤ (2 ^ 31 - 1) * (2 ^ 31 - 1) :=
  mul_bounds ⟨Int.le_of_lt h.videoFrameSizeMax.left, h.videoFrameSizeMax.right⟩
    ⟨Int.le_of_lt h.videoQueLen.left, h.videoQueLen.right⟩

theorem Valid.capture (h : Valid c) : 0 ≤ c.captureFrameSizeMax * c.captureQueLen ∧
    c.captureFrameSizeMax * c.captureQueLen ≤ (2 ^ 31 - 1) * (2 ^ 31 - 1) :=
  mul_bounds ⟨Int.le_of_lt h.captureFrameSizeMax.left, h.captureFrameSizeMax.right⟩
    ⟨Int.le_of_lt h.captureQueLen.left, h.captureQueLen.right⟩

theorem nonneg_sizes (h : Valid c) : ∀ x ∈ c.shmHeadSize :: sizes c, 0 ≤ x := by
  intro x hx
  rcases List.mem_cons.mp hx with rfl | hx
  · exact Int.le_of_lt h.shmHeadSize.left
  · rcases List.mem_append.mp hx with hx | hx
    · rw [List.eq_of_mem_replicate hx]
      exact h.video.left
    · rw [List.eq_of_mem_replicate hx]
      exact h.capture.left

-- What the two functions do where no product overflows.

section

variable (h : Valid c) (hv : Fits c.videoMax (c.videoFrameSizeMax * c.videoQueLen))
  (hc : Fits c.captureMax (c.captureFrameSizeMax * c.captureQueLen))

include h hv hc

omit h in
theorem sum_sizes : (sizes c).sum = c.videoMax * (c.videoFrameSizeMax * c.videoQueLen) +
    c.captureMax * (c.captureFrameSizeMax * c.captureQueLen) := by
  rw [sizes, List.sum_append, List.sum_replicate, List.sum_replicate, nsmul_eq_mul, nsmul_eq_mul,
    hv.natCast_mul, hc.natCast_mul]

theorem shmTotalSize_eq : shmTotalSize c =
    ((c.shmHeadSize + if c.masterEnable = 1 then 0 else (sizes c).sum) / 2 ^ 20 + 1) * 2 ^ 20 := by
  have hs := sum_sizes hv hc
  have hv' := hv.bound
  have hc' := hc.bound
  have hh := h.shmHeadSize
  have ha : shmTotalSize c =
      align (c.shmHeadSize + if c.masterEnable = 1 then 0 else (sizes c).sum) := by
    simp only [shmTotalSize, hv.wrap64 h.video.right, hc.wrap64 h.capture.right]
    rw [← hs]
    by_cases hm : c.masterEnable = 1
    case pos => simp [hm]
    case neg =>
      have hr : c.masterEnable = 0 ∨ c.masterEnable = 2 := by
        have := h.masterEnable
        omega
      rw [if_pos hr, if_neg hm, wrap64_of_lt (x := (sizes c).sum) (by omega) (by omega),
        wrap64_of_lt (by omega) (by omega)]
  rw [ha, align_eq]
  all_goals
    split <;> omega

theorem pools_initShmArray (hp : p.headsp = initHeadShm c.shmHeadSize) :
    pools (initShmArray c p) = Extent.layout 0 (c.shmHeadSize :: sizes c) := by
  have hh := h.shmHeadSize
  have hv' := hv.bound
  have hc' := hc.bound
  have ⟨hvs, hvo⟩ := iterate_spec (s := { offset := c.shmHeadSize }) "video" c.videoMax.toNat
    (Int.le_of_lt hh.left) hv.size (by rw [hv.natCast_mul]; simp only; omega)
  rw [hv.natCast_mul] at hvo
  obtain ⟨hcs, -⟩ := iterate_spec "capture" c.captureMax.toNat
    (by rw [hvo]; simp only; omega) hc.size (by rw [hc.natCast_mul, hvo]; simp only; omega)
  simp only [pools, initShmArray, hp, initHeadShm, hv.iterate, hc.iterate, hcs, hvs, hvo]
  simp [Extent.layout, sizes, Extent.layout_append, max_eq_left hv.count]

end

theorem initShmArray_sizes (c : ShmConfig) (p : ShmLayout) :
    (initShmArray c p).pShmArray.map (·.sp.size) =
      List.replicate c.videoMax.toNat (wrap32 (c.videoFrameSizeMax * c.videoQueLen)) ++
      List.replicate c.captureMax.toNat (wrap32 (c.captureFrameSizeMax * c.captureQueLen)) := by
  simp [initShmArray, map_size_iterate]

theorem lt_of_replicate {m : Int} (hm : 0 ≤ m)
    (h : List.replicate m.toNat (wrap32 x) = List.replicate m.toNat x) : m = 0 ∨ x < 2 ^ 31 := by
  rcases Int.lt_or_le 0 m with hp | hn
  · right
    have hx : wrap32 x = x := by
      obtain ⟨k, hk⟩ : ∃ k, m.toNat = k + 1 := ⟨m.toNat - 1, by omega⟩
      rw [hk, List.replicate_succ, List.replicate_succ] at h
      exact (List.cons.inj h).left
    exact hx ▸ wrap32_lt x
  · exact .inl (by omega)

theorem Exact.fits (h : Valid c) (he : Exact c (initShmArray c p)) :
    Fits c.videoMax (c.videoFrameSizeMax * c.videoQueLen) ∧
    Fits c.captureMax (c.captureFrameSizeMax * c.captureQueLen) := by
  have hs := he.sizes
  rw [pools, List.map_cons, List.map_map] at hs
  have hs := (List.cons.inj hs).right
  have hs := (initShmArray_sizes c p).symm.trans hs
  have ⟨hv, hc⟩ := List.append_inj hs (by simp)
  exact ⟨.mk' h.videoMax h.video.left (lt_of_replicate h.videoMax.left hv),
    .mk' h.captureMax h.capture.left (lt_of_replicate h.captureMax.left hc)⟩

-- Whatever the system says to `shmget`, a start that gets the shared memory divides it as it is
-- meant exactly if the slabs have sizes that an int can hold, and a master has room for them.
theorem exact_iff_sized (h : Valid c) (hm : shmInit c shmget = some p) :
    Exact c (initShmArray c p) ↔ Sized c := by
  have hp : p.headsp = initHeadShm c.shmHeadSize ∧ p.shmTotalSize = shmTotalSize c := by
    simp only [shmInit] at hm
    split at hm <;> cases hm
    exact ⟨rfl, rfl⟩
  have hh := h.shmHeadSize
  have hn := nonneg_sizes h
  constructor
  case mp =>
    intro he
    have ⟨hv, hc⟩ := he.fits h
    refine ⟨hv.fits, hc.fits, fun h₁ => ?_⟩
    have ht := shmTotalSize_eq h hv hc
    rw [if_pos h₁, Int.add_zero, ← hp.right] at ht
    have hl : 0 + (c.shmHeadSize :: sizes c).sum ≤ p.shmTotalSize := by
      apply Extent.sum_le_of_layout (by omega)
      intro a ha
      rw [← pools_initShmArray h hv hc hp.left] at ha
      exact (he.inside a ha).right
    rw [List.sum_cons, ht] at hl
    omega
  case mpr =>
    intro hs
    have hv := Fits.mk' h.videoMax h.video.left hs.video
    have hc := Fits.mk' h.captureMax h.capture.left hs.capture
    have ht := shmTotalSize_eq h hv hc
    have hsum := List.sum_nonneg fun x hx => hn x (.tail _ hx)
    have hl : (c.shmHeadSize :: sizes c).sum ≤ p.shmTotalSize := by
      rw [hp.right, ht, List.sum_cons]
      split
      case isTrue h₁ => simpa using hs.room h₁
      case isFalse   => omega
    constructor
    all_goals rw [pools_initShmArray h hv hc hp.left]
    case sizes  => exact Extent.map_size_layout
    case apart  => exact Extent.pairwise_layout hn
    case inside =>
      intro a ha
      have hm := Extent.mem_layout hn ha
      exact ⟨hm.left, by simp only [initShmArray]; omega⟩

section

-- The configuration that comes with the program.
def config : ShmConfig where
  masterEnable := 2
  shmHeadSize := 1073741824
  videoMax := 3
  videoFrameSizeMax := 1048576
  videoQueLen := 20
  captureMax := 3
  captureFrameSizeMax := 2097152
  captureQueLen := 10

theorem valid_config : Valid config := by
  constructor <;> decide

theorem exact_iff_sized_witness :
    ∃ p, shmInit config (fun _ => true) = some p ∧ Exact config (initShmArray config p) := by
  have hm : shmInit config (fun _ => true) = some ⟨shmTotalSize config, ⟨0, 1073741824⟩, []⟩ := rfl
  exact ⟨_, hm, (exact_iff_sized valid_config hm).mpr
    ⟨.inr (by decide), .inr (by decide), fun h => absurd h (by decide)⟩⟩

-- The same configuration on a host that is only a master. The first slab ends behind the memory.
theorem not_exact_of_master : ¬∀ (c : ShmConfig) (shmget : Int → Bool) (p : ShmLayout), Valid c →
    shmInit c shmget = some p → Exact c (initShmArray c p) := by
  intro h
  have he := h { config with masterEnable := 1 } (fun _ => true) _ (by constructor <;> decide) rfl
  exact absurd (he.inside ⟨1073741824, 1094713344⟩ (by decide)).right (by decide)

end

end Shm.Layout
