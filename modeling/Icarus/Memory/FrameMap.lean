/-
Well-formed frame maps. The invariant `WF`, what marking and releasing a run of frames does to it
and to the set of free frames, and the result of `map_alloc_frame_contiguous` on such a map: the
first run of the first region that has one, or nothing when no region has one.
-/
import Mathlib
import Icarus.Memory.FrameSearch

namespace Icarus.Memory

open Icarus.Base

/-! ## The invariant -/

/-- The frames of a region. -/
def MemRegion.frames (r : MemRegion) : Nat := r.lenBytes / defaultPageSize

/-- A region by itself: a non-empty page-aligned address range of at most `2^20` frames. -/
structure RegionOK (r : MemRegion) : Prop where
  nonempty : 0 < r.lenBytes
  startAligned : r.startAddr % defaultPageSize = 0
  lenAligned : r.lenBytes % defaultPageSize = 0
  small : r.frames ≤ 2 ^ 20
  addr : r.startAddr + r.lenBytes < 2 ^ 64

/-- The slices follow each other from bit `base` on, each padded to whole words, and end at
`size`: the layout `memmap_register_region` produces. -/
def LaidOut (size : Nat) : Nat → List MemRegion → Prop
  | base, [] => size = base
  | base, r :: rs => r.bitmapStartAddr = base ∧ r.qwordCount = (r.frames + 63) / 64 ∧
      LaidOut size (base + 64 * r.qwordCount) rs

/-- The clear bits of a region's slice. -/
def freeBits (data : Mem) (r : MemRegion) : Finset Nat :=
  (Finset.range (64 * r.qwordCount)).filter fun j => data.bit (r.bitmapStartAddr + j) = false

/-- The regions of a map, of any size: page-aligned address ranges in ascending order, and their slices. -/
structure Shaped (mmap : MemMap) : Prop where
  capacity : mmap.regions.length ≤ maxMemRegions
  nonempty : ∀ r ∈ mmap.regions, 0 < r.lenBytes
  startAligned : ∀ r ∈ mmap.regions, r.startAddr % defaultPageSize = 0
  lenAligned : ∀ r ∈ mmap.regions, r.lenBytes % defaultPageSize = 0
  addr : ∀ r ∈ mmap.regions, r.startAddr + r.lenBytes < 2 ^ 64
  ascending : mmap.regions.Pairwise fun a b => a.startAddr + a.lenBytes ≤ b.startAddr
  laidOut : LaidOut mmap.bitmap.size 0 mmap.regions

/-- The padding of every slice is marked used, and every count of free frames is right. -/
structure Counted (mmap : MemMap) : Prop where
  padding : ∀ r ∈ mmap.regions, ∀ j, r.frames ≤ j → j < 64 * r.qwordCount →
    mmap.bitmap.bit (r.bitmapStartAddr + j) = true
  exact : ∀ r ∈ mmap.regions, r.freeFrames = (freeBits mmap.bitmap.data r).card

/-- A well-formed map. -/
structure WF (mmap : MemMap) : Prop where
  capacity : mmap.regions.length ≤ maxMemRegions
  region : ∀ r ∈ mmap.regions, RegionOK r
  ascending : mmap.regions.Pairwise fun a b => a.startAddr + a.lenBytes ≤ b.startAddr
  laidOut : LaidOut mmap.bitmap.size 0 mmap.regions
  padding : ∀ r ∈ mmap.regions, ∀ j, r.frames ≤ j → j < 64 * r.qwordCount →
    mmap.bitmap.bit (r.bitmapStartAddr + j) = true
  exact : ∀ r ∈ mmap.regions, r.freeFrames = (freeBits mmap.bitmap.data r).card

/-- The addresses of the frames of the map whose bit has the value `v`. -/
def MemMap.framesWith (v : Bool) (mmap : MemMap) : Set Nat :=
  {a | ∃ r ∈ mmap.regions, ∃ k, k < r.frames ∧ a = r.startAddr + 4096 * k ∧
    mmap.bitmap.bit (r.bitmapStartAddr + k) = v}

/-- The frames the map marks free. -/
abbrev MemMap.free (mmap : MemMap) : Set Nat := mmap.framesWith false

/-- The frames the map marks used. -/
abbrev MemMap.used (mmap : MemMap) : Set Nat := mmap.framesWith true

/-- The range and the slice of `a` lie before those of `b`. -/
def MemRegion.Before (a b : MemRegion) : Prop :=
  a.startAddr + a.lenBytes ≤ b.startAddr ∧ a.bitmapStartAddr + 64 * a.qwordCount ≤ b.bitmapStartAddr

/-! ## Slices -/

theorem LaidOut.size_le {size : Nat} : ∀ {base : Nat} {rs : List MemRegion}, LaidOut size base rs →
    base ≤ size ∧ ∀ r ∈ rs, base ≤ r.bitmapStartAddr ∧ r.bitmapStartAddr + 64 * r.qwordCount ≤ size
  | base, [], h => ⟨le_of_eq h.symm, by simp⟩
  | base, r :: rs, ⟨h1, h2, h3⟩ => by
    obtain ⟨h4, h5⟩ := h3.size_le
    refine ⟨by omega, fun r' hr' => ?_⟩
    rcases List.mem_cons.1 hr' with rfl | hr'
    · omega
    · have := h5 r' hr'
      omega

theorem LaidOut.pairwise {size : Nat} : ∀ {base : Nat} {rs : List MemRegion}, LaidOut size base rs →
    rs.Pairwise fun a b => a.bitmapStartAddr + 64 * a.qwordCount ≤ b.bitmapStartAddr
  | _, [], _ => List.Pairwise.nil
  | _, r :: rs, ⟨h1, h2, h3⟩ => by
    refine List.pairwise_cons.2 ⟨fun b hb => ?_, h3.pairwise⟩
    have := (h3.size_le.2 b hb).1
    omega

theorem LaidOut.aligned {size : Nat} : ∀ {base : Nat} {rs : List MemRegion}, LaidOut size base rs →
    base % 64 = 0 → ∀ r ∈ rs, r.bitmapStartAddr % 64 = 0 ∧ r.qwordCount = (r.frames + 63) / 64
  | _, [], _, _ => by simp
  | base, r :: rs, ⟨h1, h2, h3⟩, hb => by
    intro r' hr'
    rcases List.mem_cons.1 hr' with rfl | hr'
    · exact ⟨by omega, h2⟩
    · exact h3.aligned (by omega) r' hr'

/-- The bits of ascending regions between `lo` and `hi`: one for each frame between, and at most `pad` more
for each region. -/
theorem LaidOut.total {size lo hi pad : Nat} : ∀ {base : Nat} {rs : List MemRegion}, LaidOut size base rs →
    (∀ r ∈ rs, r.lenBytes % defaultPageSize = 0) →
    (∀ r ∈ rs, 64 * r.qwordCount ≤ r.frames + pad) →
    (rs.Pairwise fun a b => a.startAddr + a.lenBytes ≤ b.startAddr) →
    (∀ r ∈ rs, lo ≤ r.startAddr ∧ r.startAddr + r.lenBytes ≤ hi) → lo ≤ hi →
    4096 * size + lo ≤ 4096 * base + hi + 4096 * (pad * rs.length)
  | base, [], h, _, _, _, _, hle => by
    have hsize : size = base := h
    simp only [List.length_nil]
    omega
  | base, r :: rs, ⟨h1, h2, h3⟩, hal, hpad, hasc, hin, hle => by
    obtain ⟨hnext, hasc⟩ := List.pairwise_cons.1 hasc
    have hr := hin r (List.mem_cons_self ..)
    have hlen := hal r (List.mem_cons_self ..)
    have hq := hpad r (List.mem_cons_self ..)
    have ih := h3.total (fun x hx => hal x (List.mem_cons_of_mem _ hx))
      (fun x hx => hpad x (List.mem_cons_of_mem _ hx)) hasc
      (fun x hx => ⟨hnext x hx, (hin x (List.mem_cons_of_mem _ hx)).2⟩) hr.2
    unfold MemRegion.frames at hq
    unfold defaultPageSize at hlen hq
    simp only [List.length_cons, Nat.mul_add, Nat.mul_one]
    omega

/-- The layout reads no count of free frames. -/
theorem LaidOut.recount {size c : Nat} {r : MemRegion} : ∀ {base : Nat} {pre post : List MemRegion},
    LaidOut size base (pre ++ r :: post) → LaidOut size base (pre ++ { r with freeFrames := c } :: post)
  | _, [], _, h => h
  | _, _ :: _, _, ⟨h1, h2, h3⟩ => ⟨h1, h2, recount h3⟩

namespace Shaped

variable {mmap : MemMap} {r : MemRegion}

theorem slice_aligned (h : Shaped mmap) (hr : r ∈ mmap.regions) : r.bitmapStartAddr % 64 = 0 :=
  (h.laidOut.aligned (by simp) r hr).1

theorem qwordCount_eq (h : Shaped mmap) (hr : r ∈ mmap.regions) : r.qwordCount = (r.frames + 63) / 64 :=
  (h.laidOut.aligned (by simp) r hr).2

theorem slice_le (h : Shaped mmap) (hr : r ∈ mmap.regions) :
    r.bitmapStartAddr + 64 * r.qwordCount ≤ mmap.bitmap.size :=
  (h.laidOut.size_le.2 r hr).2

theorem len_eq (h : Shaped mmap) (hr : r ∈ mmap.regions) : r.lenBytes = 4096 * r.frames := by
  have := h.lenAligned r hr
  unfold MemRegion.frames
  unfold defaultPageSize at *
  omega

/-- The address space has 2^52 frames. -/
theorem size_lt (h : Shaped mmap) : mmap.bitmap.size < 2 ^ 63 := by
  have hpad : ∀ r ∈ mmap.regions, 64 * r.qwordCount ≤ r.frames + 63 := by
    intro r hr
    have := h.qwordCount_eq hr
    omega
  have hbounds : ∀ r ∈ mmap.regions, 0 ≤ r.startAddr ∧ r.startAddr + r.lenBytes ≤ 2 ^ 64 :=
    fun r hr => ⟨Nat.zero_le _, le_of_lt (h.addr r hr)⟩
  have htotal := h.laidOut.total h.lenAligned hpad h.ascending hbounds (Nat.zero_le _)
  have hcap := h.capacity
  unfold maxMemRegions at hcap
  omega

/-- Two regions are the same, or one lies before the other. -/
theorem apart (h : Shaped mmap) {a b : MemRegion} (ha : a ∈ mmap.regions) (hb : b ∈ mmap.regions) :
    a = b ∨ a.Before b ∨ b.Before a := by
  have hpair := h.ascending.and h.laidOut.pairwise
  exact (hpair.imp fun h => Or.inr (Or.inl h)).forall_of_forall_of_flip
    (R := fun a b => a = b ∨ a.Before b ∨ b.Before a) (fun _ _ => Or.inl rfl)
    (hpair.imp fun h => Or.inr (Or.inr h)) ha hb

end Shaped

/-- A map of one region. -/
theorem wf_single {mmap : MemMap} {r : MemRegion} (hr : mmap.regions = [r]) (hok : RegionOK r)
    (hlaid : LaidOut mmap.bitmap.size 0 [r])
    (hpad : ∀ j, r.frames ≤ j → j < 64 * r.qwordCount → mmap.bitmap.bit (r.bitmapStartAddr + j) = true)
    (hexact : r.freeFrames = (freeBits mmap.bitmap.data r).card) : WF mmap := by
  constructor
  · rw [hr]
    exact (by decide : 1 ≤ maxMemRegions)
  · simpa [hr] using hok
  · rw [hr]
    exact List.pairwise_singleton _ _
  · rwa [hr]
  · simpa [hr] using hpad
  · simpa [hr] using hexact

/-- A run of free frames is among the clear bits. -/
theorem run_subset_freeBits {data : Mem} {r : MemRegion} {k n : Nat} (hrun : IsRun (FreeAt data r.bitmapStartAddr) k n)
    (hk : k + n ≤ 64 * r.qwordCount) : Finset.Ico k (k + n) ⊆ freeBits data r := by
  intro j hj
  rw [Finset.mem_Ico] at hj
  have := hrun (j - k) (by omega)
  rw [show k + (j - k) = j by omega] at this
  exact Finset.mem_filter.2 ⟨Finset.mem_range.2 (by omega), this⟩

namespace Counted

variable {mmap : MemMap} {r : MemRegion}

/-- A free run of a slice holds frames only: the padding is marked used. -/
theorem run_le_frames (h : Counted mmap) (hr : r ∈ mmap.regions) {n k : Nat} (hn : 0 < n)
    (hrun : IsRun (FreeAt mmap.bitmap.data r.bitmapStartAddr) k n) (hk : k + n ≤ 64 * r.qwordCount) :
    k + n ≤ r.frames := by
  by_contra hlt
  have hpad := h.padding r hr (k + (n - 1)) (by omega) (by omega)
  have hfree : mmap.bitmap.bit (r.bitmapStartAddr + (k + (n - 1))) = false := hrun (n - 1) (by omega)
  rw [hpad] at hfree
  cases hfree

/-- A run of `n` free frames is counted in the region's free frames. -/
theorem run_le_free (h : Counted mmap) (hr : r ∈ mmap.regions) {n k : Nat}
    (hrun : IsRun (FreeAt mmap.bitmap.data r.bitmapStartAddr) k n) (hk : k + n ≤ 64 * r.qwordCount) :
    n ≤ r.freeFrames := by
  rw [h.exact r hr]
  have := Finset.card_le_card (run_subset_freeBits hrun hk)
  simpa using this

end Counted

namespace WF

variable {mmap : MemMap} {r : MemRegion}

theorem shaped (h : WF mmap) : Shaped mmap where
  capacity := h.capacity
  nonempty r hr := (h.region r hr).nonempty
  startAligned r hr := (h.region r hr).startAligned
  lenAligned r hr := (h.region r hr).lenAligned
  addr r hr := (h.region r hr).addr
  ascending := h.ascending
  laidOut := h.laidOut

theorem counted (h : WF mmap) : Counted mmap := ⟨h.padding, h.exact⟩

theorem size_lt (h : WF mmap) : mmap.bitmap.size < 2 ^ 63 := h.shaped.size_lt

theorem qwordCount_eq (h : WF mmap) (hr : r ∈ mmap.regions) : r.qwordCount = (r.frames + 63) / 64 :=
  h.shaped.qwordCount_eq hr

theorem slice_le (h : WF mmap) (hr : r ∈ mmap.regions) :
    r.bitmapStartAddr + 64 * r.qwordCount ≤ mmap.bitmap.size :=
  h.shaped.slice_le hr

theorem len_eq (h : WF mmap) (hr : r ∈ mmap.regions) : r.lenBytes = 4096 * r.frames := h.shaped.len_eq hr

theorem apart (h : WF mmap) {a b : MemRegion} (ha : a ∈ mmap.regions) (hb : b ∈ mmap.regions) :
    a = b ∨ a.Before b ∨ b.Before a :=
  h.shaped.apart ha hb

end WF

/-! ## Updating a range inside one region -/

section
variable {mmap : MemMap} {pre post : List MemRegion} {r : MemRegion} {start stop : Nat}

theorem endAddr_eq (h : Shaped mmap) (hr : r ∈ mmap.regions) : r.endAddr = r.startAddr + r.lenBytes :=
  add64_of_lt (h.addr r hr)

/-- The loop stops at the region that holds the range: an earlier one ends before it. -/
theorem findIdx_holds (h : Shaped mmap) (hr : mmap.regions = pre ++ r :: post) (h1 : r.startAddr ≤ start)
    (h2 : start < stop) (h3 : stop ≤ r.startAddr + r.lenBytes) :
    mmap.regions.findIdx? (·.holds start stop) = some pre.length := by
  have hasc := h.ascending
  rw [hr, List.pairwise_append] at hasc
  have hpre : pre.findIdx? (·.holds start stop) = none := by
    rw [List.findIdx?_eq_none_iff]
    intro a ha
    have hlt := hasc.2.2 a ha r (List.mem_cons_self ..)
    have := endAddr_eq h (r := a) (by rw [hr]; exact List.mem_append_left _ ha)
    simp only [MemRegion.holds, Bool.not_eq_false', Bool.or_eq_true, decide_eq_true_eq]
    omega
  have hr' : r.holds start stop = true := by
    have := endAddr_eq h (r := r) (by rw [hr]; simp)
    simp only [MemRegion.holds, Bool.not_eq_true', Bool.or_eq_false_iff, decide_eq_false_iff_not]
    omega
  rw [hr, List.findIdx?_append, hpre, List.findIdx?_cons, hr']
  simp

/-- A range inside region `r` passes the check of the span and changes that region only. -/
theorem updateRange_eq {count : Nat → Nat → Nat} {write : BitMap → Nat → Nat → Int × BitMap} {units : Nat}
    (h : Shaped mmap) (hr : mmap.regions = pre ++ r :: post) (h1 : r.startAddr ≤ start) (h2 : start < stop)
    (h3 : stop ≤ r.startAddr + r.lenBytes) :
    updateRange count write units mmap start stop =
      (0, { mmap with
        regions := pre ++ { r with freeFrames := count r.freeFrames units } :: post
        bitmap := (write mmap.bitmap (r.bitmapStartAddr + (start - r.startAddr) / 4096) units).2 }) := by
  have hmem : r ∈ mmap.regions := by rw [hr]; simp
  have hasc := h.ascending
  rw [hr, List.pairwise_append, List.pairwise_cons] at hasc
  obtain ⟨-, ⟨hpost, -⟩, hpre⟩ := hasc
  have hfirst : (mmap.regions.headD default).startAddr ≤ r.startAddr := by
    rw [hr]
    cases pre with
    | nil => simp
    | cons a pre =>
      have := hpre a (List.mem_cons_self ..) r (List.mem_cons_self ..)
      simp only [List.cons_append, List.headD_cons]
      omega
  have hlast : r.startAddr + r.lenBytes ≤ (mmap.regions.getLastD default).endAddr := by
    rcases List.eq_nil_or_concat post with rfl | ⟨L, b, rfl⟩
    · rw [← endAddr_eq h hmem, hr]
      simp
    · have hb : b ∈ mmap.regions := by rw [hr]; simp
      have := hpost b (by simp)
      have hend := endAddr_eq h hb
      rw [hr]
      simp only [List.concat_eq_append, List.getLastD_eq_getLast?, List.getLast?_append,
        List.getLast?_cons, List.getLast?_nil, Option.getD_some, Option.getD_none, Option.some_or]
      omega
  have haddr := h.addr r hmem
  have hslice : r.bitmapStartAddr + (start - r.startAddr) / 4096 < 2 ^ 64 := by
    have := h.slice_le hmem
    have := h.size_lt
    have := h.qwordCount_eq hmem
    have := h.len_eq hmem
    omega
  unfold updateRange
  rw [if_neg (by omega), findIdx_holds h hr h1 h2 h3]
  simp only [defaultPageSize]
  rw [hr]
  simp only [List.getD_eq_getElem?_getD, List.getElem?_append_right (le_refl pre.length), Nat.sub_self,
    List.getElem?_cons_zero, Option.getD_some, List.set_append_right pre.length _ (le_refl pre.length),
    List.set_cons_zero]
  rw [sub64_of_le h1 (by omega), add64_of_lt hslice]

/-- The map after an update of region `r`: a new count and new bits. -/
def recounted (mmap : MemMap) (pre : List MemRegion) (r : MemRegion) (post : List MemRegion) (c : Nat)
    (data : Mem) : MemMap :=
  { mmap with
    regions := pre ++ { r with freeFrames := c } :: post
    bitmap := { mmap.bitmap with data := data } }

variable {c k n : Nat} {data : Mem} {v : Bool}

/-- An update of the frames `[k, k + n)` of region `r`. -/
theorem updateRange_run {count : Nat → Nat → Nat} {write : BitMap → Nat → Nat → Int × BitMap}
    (hwrite : ∀ {map : BitMap} {start len : Nat}, map.size < 2 ^ 63 → start + len ≤ map.size →
      ∃ data, write map start len = (0, { map with data := data }) ∧
        WrittenTo v map.data start (start + len) data)
    (h : Shaped mmap) (hr : mmap.regions = pre ++ r :: post) (hn : 0 < n) (hk : k + n ≤ r.frames) :
    ∃ data, WrittenTo v mmap.bitmap.data (r.bitmapStartAddr + k) (r.bitmapStartAddr + k + n) data ∧
      updateRange count write n mmap (r.startAddr + 4096 * k) (r.startAddr + 4096 * (k + n)) =
        (0, recounted mmap pre r post (count r.freeFrames n) data) := by
  have hmem : r ∈ mmap.regions := by rw [hr]; simp
  have hq := h.qwordCount_eq hmem
  have hslice := h.slice_le hmem
  have hlen := h.len_eq hmem
  obtain ⟨data, heq, hd⟩ := @hwrite mmap.bitmap (r.bitmapStartAddr + k) n h.size_lt (by omega)
  refine ⟨data, hd, ?_⟩
  rw [updateRange_eq h hr (by omega) (by omega) (by omega),
    show (r.startAddr + 4096 * k - r.startAddr) / 4096 = k by omega, heq]
  rfl

/-- The regions after an update of `r` are `r` with its new count, and those before and behind it. -/
theorem Shaped.mem_recounted (h : Shaped mmap) (hr : mmap.regions = pre ++ r :: post) :
    ∀ x ∈ pre ++ { r with freeFrames := c } :: post,
      x = { r with freeFrames := c } ∨ x ∈ mmap.regions ∧ (x.Before r ∨ r.Before x) := by
  have hpair := h.ascending.and h.laidOut.pairwise
  rw [hr, List.pairwise_append, List.pairwise_cons] at hpair
  obtain ⟨-, ⟨hpost, -⟩, hpre⟩ := hpair
  intro x hx
  rcases List.mem_append.1 hx with hx | hx
  · exact Or.inr ⟨by rw [hr]; exact List.mem_append_left _ hx, Or.inl (hpre x hx r (List.mem_cons_self ..))⟩
  · rcases List.mem_cons.1 hx with hx | hx
    · exact Or.inl hx
    · exact Or.inr ⟨by rw [hr]; exact List.mem_append_right _ (List.mem_cons_of_mem _ hx),
        Or.inr (hpost x hx)⟩

/-- New bits inside the slice of `r`, the padding kept and the count right, keep the map well-formed. -/
theorem WF.recounted (h : WF mmap) (hr : mmap.regions = pre ++ r :: post)
    (hout : ∀ j, j < r.bitmapStartAddr ∨ r.bitmapStartAddr + 64 * r.qwordCount ≤ j →
      data.bit j = mmap.bitmap.bit j)
    (hpad : ∀ j, r.frames ≤ j → j < 64 * r.qwordCount → data.bit (r.bitmapStartAddr + j) = true)
    (hc : c = (freeBits data r).card) : WF (recounted mmap pre r post c data) := by
  have hmem : r ∈ mmap.regions := by rw [hr]; simp
  have hsplit : ∀ x ∈ pre ++ { r with freeFrames := c } :: post, x = { r with freeFrames := c } ∨
      (x ∈ mmap.regions ∧ (x.Before r ∨ r.Before x)) := h.shaped.mem_recounted hr
  -- the slice of any other region keeps its bits
  have hsame : ∀ x : MemRegion, x.Before r ∨ r.Before x → ∀ j, j < 64 * x.qwordCount →
      data.bit (x.bitmapStartAddr + j) = mmap.bitmap.bit (x.bitmapStartAddr + j) := by
    rintro x (⟨-, hb⟩ | ⟨-, hb⟩) j hj
    · exact hout _ (by omega)
    · exact hout _ (by omega)
  refine ⟨?_, ?_, ?_, ?_, ?_, ?_⟩
  · have := h.capacity
    rw [hr] at this
    simpa [Memory.recounted] using this
  · intro x hx
    rcases hsplit x hx with rfl | ⟨hx, -⟩
    · exact ⟨(h.region r hmem).nonempty, (h.region r hmem).startAligned, (h.region r hmem).lenAligned,
        (h.region r hmem).small, (h.region r hmem).addr⟩
    · exact h.region x hx
  · have hasc := h.ascending
    rw [hr, List.pairwise_append, List.pairwise_cons] at hasc
    exact List.pairwise_append.2 ⟨hasc.1, List.pairwise_cons.2 hasc.2.1, fun a ha b hb => by
      rcases List.mem_cons.1 hb with rfl | hb
      · exact hasc.2.2 a ha r (List.mem_cons_self ..)
      · exact hasc.2.2 a ha b (List.mem_cons_of_mem _ hb)⟩
  · have := h.laidOut
    rw [hr] at this
    exact this.recount
  · intro x hx j h1 h2
    rcases hsplit x hx with rfl | ⟨hx, hb⟩
    · exact hpad j h1 h2
    · show data.bit _ = true
      rw [hsame x hb j h2]
      exact h.padding x hx j h1 h2
  · intro x hx
    rcases hsplit x hx with rfl | ⟨hx, hb⟩
    · exact hc
    · rw [h.exact x hx]
      congr 1
      apply Finset.filter_congr
      intro j hj
      rw [Finset.mem_range] at hj
      show _ ↔ data.bit _ = false
      rw [hsame x hb j hj]
      exact Iff.rfl

/-- Bits of a run of frames: as written inside the run, as before outside. -/
theorem written_outside (h : WF mmap) (hr : mmap.regions = pre ++ r :: post) (hk : k + n ≤ r.frames)
    (hd : WrittenTo v mmap.bitmap.data (r.bitmapStartAddr + k) (r.bitmapStartAddr + k + n) data) (j : Nat)
    (hj : j < r.bitmapStartAddr ∨ r.bitmapStartAddr + 64 * r.qwordCount ≤ j) :
    data.bit j = mmap.bitmap.bit j := by
  have := h.qwordCount_eq (r := r) (by rw [hr]; simp)
  rw [hd j, if_neg (by omega)]
  rfl

theorem written_padding (h : WF mmap) (hr : mmap.regions = pre ++ r :: post) (hk : k + n ≤ r.frames)
    (hd : WrittenTo v mmap.bitmap.data (r.bitmapStartAddr + k) (r.bitmapStartAddr + k + n) data) (j : Nat)
    (h1 : r.frames ≤ j) (h2 : j < 64 * r.qwordCount) : data.bit (r.bitmapStartAddr + j) = true := by
  rw [hd _, if_neg (by omega)]
  exact h.padding r (by rw [hr]; simp) j h1 h2

/-- Marking a free run used. -/
theorem WF.mark (h : WF mmap) (hr : mmap.regions = pre ++ r :: post) (hk : k + n ≤ r.frames)
    (hrun : IsRun (FreeAt mmap.bitmap.data r.bitmapStartAddr) k n)
    (hd : WrittenTo true mmap.bitmap.data (r.bitmapStartAddr + k) (r.bitmapStartAddr + k + n) data) :
    WF (Memory.recounted mmap pre r post (r.freeFrames - n) data) := by
  have hmem : r ∈ mmap.regions := by rw [hr]; simp
  have hq := h.qwordCount_eq hmem
  refine h.recounted hr (written_outside h hr hk hd) (written_padding h hr hk hd) ?_
  have hsdiff : freeBits data r = freeBits mmap.bitmap.data r \ Finset.Ico k (k + n) := by
    ext j
    simp only [freeBits, Finset.mem_filter, Finset.mem_range, Finset.mem_sdiff, Finset.mem_Ico]
    rw [hd (r.bitmapStartAddr + j)]
    split_ifs with hj
    · constructor
      · rintro ⟨_, h⟩; cases h
      · rintro ⟨_, h⟩; omega
    · constructor
      · rintro ⟨h1, h2⟩; exact ⟨⟨h1, h2⟩, by omega⟩
      · rintro ⟨h1, _⟩; exact h1
  rw [hsdiff, Finset.card_sdiff_of_subset (run_subset_freeBits hrun (by omega)), h.exact r hmem]
  simp

/-- Releasing a used run. -/
theorem WF.release (h : WF mmap) (hr : mmap.regions = pre ++ r :: post) (hk : k + n ≤ r.frames)
    (hrun : ∀ j, j < n → mmap.bitmap.bit (r.bitmapStartAddr + (k + j)) = true)
    (hd : WrittenTo false mmap.bitmap.data (r.bitmapStartAddr + k) (r.bitmapStartAddr + k + n) data) :
    WF (Memory.recounted mmap pre r post (r.freeFrames + n) data) := by
  have hmem : r ∈ mmap.regions := by rw [hr]; simp
  have hq := h.qwordCount_eq hmem
  refine h.recounted hr (written_outside h hr hk hd) (written_padding h hr hk hd) ?_
  have hunion : freeBits data r = freeBits mmap.bitmap.data r ∪ Finset.Ico k (k + n) := by
    ext j
    simp only [freeBits, Finset.mem_filter, Finset.mem_range, Finset.mem_union, Finset.mem_Ico]
    rw [hd (r.bitmapStartAddr + j)]
    split_ifs with hj
    · constructor
      · intro _; right; omega
      · intro _; exact ⟨by omega, rfl⟩
    · constructor
      · rintro ⟨h1, h2⟩; exact Or.inl ⟨h1, h2⟩
      · rintro (h1 | h1)
        · exact h1
        · omega
  have hdisj : Disjoint (freeBits mmap.bitmap.data r) (Finset.Ico k (k + n)) := by
    rw [Finset.disjoint_left]
    intro j hj hj'
    rw [Finset.mem_Ico] at hj'
    have h1 := (Finset.mem_filter.1 hj).2
    have h2 := hrun (j - k) (by omega)
    rw [show k + (j - k) = j by omega] at h2
    unfold BitMap.bit at h2
    rw [h2] at h1
    cases h1
  rw [hunion, Finset.card_union_of_disjoint hdisj, h.exact r hmem]
  simp

/-! ## The set of free frames -/

/-- The frames of a block: its start and its number of frames. -/
def blockFrames (b : Nat × Nat) : Set Nat := {a | ∃ k, k < b.2 ∧ a = b.1 + 4096 * k}

/-- A frame lies in a run of `r` exactly when its bit lies in the run's bits. -/
theorem mem_run_iff (h : Shaped mmap) (hr : r ∈ mmap.regions) (hk : k + n ≤ r.frames) {x : MemRegion}
    (hx : x ∈ mmap.regions) {i : Nat} (hi : i < x.frames) :
    x.startAddr + 4096 * i ∈ blockFrames (r.startAddr + 4096 * k, n) ↔
      r.bitmapStartAddr + k ≤ x.bitmapStartAddr + i ∧ x.bitmapStartAddr + i < r.bitmapStartAddr + k + n := by
  have hq := h.qwordCount_eq hr
  have hqx := h.qwordCount_eq hx
  have hl := h.len_eq hr
  have hlx := h.len_eq hx
  constructor
  · rintro ⟨j, hj, he⟩
    simp only at hj he
    rcases h.apart hx hr with rfl | ⟨h1, h2⟩ | ⟨h1, h2⟩ <;> omega
  · intro hb
    refine ⟨x.bitmapStartAddr + i - (r.bitmapStartAddr + k), by simp only; omega, ?_⟩
    simp only
    rcases h.apart hx hr with rfl | ⟨h1, h2⟩ | ⟨h1, h2⟩ <;> omega

theorem mem_framesWith_recounted {v : Bool} {a : Nat} (hr : mmap.regions = pre ++ r :: post) :
    a ∈ (recounted mmap pre r post c data).framesWith v ↔
      ∃ x ∈ mmap.regions, ∃ i, i < x.frames ∧ a = x.startAddr + 4096 * i ∧
        data.bit (x.bitmapStartAddr + i) = v := by
  rw [hr]
  unfold MemMap.framesWith recounted
  simp only [List.mem_append, List.mem_cons, or_and_right, exists_or, exists_eq_left, Set.mem_ofPred_eq]
  exact Iff.rfl

theorem free_mark (h : Shaped mmap) (hr : mmap.regions = pre ++ r :: post) (hk : k + n ≤ r.frames)
    (hd : WrittenTo true mmap.bitmap.data (r.bitmapStartAddr + k) (r.bitmapStartAddr + k + n) data) :
    (recounted mmap pre r post c data).free = mmap.free \ blockFrames (r.startAddr + 4096 * k, n) := by
  have hmem : r ∈ mmap.regions := by rw [hr]; simp
  ext a
  rw [MemMap.free, mem_framesWith_recounted hr]
  constructor
  · rintro ⟨x, hx, i, hi, rfl, hb⟩
    rw [hd _] at hb
    split_ifs at hb with hj
    exact ⟨⟨x, hx, i, hi, rfl, hb⟩, fun hin => hj ((mem_run_iff h hmem hk hx hi).1 hin)⟩
  · rintro ⟨⟨x, hx, i, hi, rfl, hb⟩, hnot⟩
    refine ⟨x, hx, i, hi, rfl, ?_⟩
    rw [hd _, if_neg fun hj => hnot ((mem_run_iff h hmem hk hx hi).2 hj)]
    exact hb

theorem free_release (h : WF mmap) (hr : mmap.regions = pre ++ r :: post) (hk : k + n ≤ r.frames)
    (hd : WrittenTo false mmap.bitmap.data (r.bitmapStartAddr + k) (r.bitmapStartAddr + k + n) data) :
    (recounted mmap pre r post c data).free = mmap.free ∪ blockFrames (r.startAddr + 4096 * k, n) := by
  have hmem : r ∈ mmap.regions := by rw [hr]; simp
  ext a
  rw [MemMap.free, mem_framesWith_recounted hr]
  constructor
  · rintro ⟨x, hx, i, hi, rfl, hb⟩
    rw [hd _] at hb
    split_ifs at hb with hj
    · exact Or.inr ((mem_run_iff h.shaped hmem hk hx hi).2 hj)
    · exact Or.inl ⟨x, hx, i, hi, rfl, hb⟩
  · rintro (⟨x, hx, i, hi, rfl, hb⟩ | ⟨j, hj, rfl⟩)
    · refine ⟨x, hx, i, hi, rfl, ?_⟩
      rw [hd _]
      split_ifs
      · rfl
      · exact hb
    · simp only at hj
      refine ⟨r, hmem, k + j, by omega, by simp only; ring, ?_⟩
      rw [hd _, if_pos (by omega)]

end

end Icarus.Memory
