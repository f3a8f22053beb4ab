/-
Maps that differ in the state of their frames only. Such a map is determined by the set of its free frames, so
an allocation has been undone as soon as that set is what it was.
-/
import Icarus.Memory.BootMap
import Icarus.Memory.FrameSafety

namespace Icarus.Memory

open Icarus.Base

/-! ## Maps of the same frames -/

/-- All frames of the map, free or used. -/
def MemMap.frames (mmap : MemMap) : Set Nat := {a | ∃ r ∈ mmap.regions, ∃ k, k < r.frames ∧ a = r.startAddr + 4096 * k}

/-- No frame of the map has its state in bit `j`. -/
def MemMap.NoFrame (mmap : MemMap) (j : Nat) : Prop := ∀ r ∈ mmap.regions, ∀ k, k < r.frames → j ≠ r.bitmapStartAddr + k

/-- The maps differ in counts and in bits of frames at most. -/
structure SameFrames (a b : MemMap) : Prop where
  memSize : b.memSize = a.memSize
  same : SameRegions b a
  rest : ∀ j, a.NoFrame j → b.bitmap.bit j = a.bitmap.bit j

/-- Every bit of the bitmap and every count of free frames is what it was. -/
def MemMap.Restored (before after : MemMap) : Prop :=
  (∀ j, after.bitmap.bit j = before.bitmap.bit j) ∧
    after.regions.map (·.freeFrames) = before.regions.map (·.freeFrames)

section
variable {a b c : MemMap}

theorem MemMap.Restored.refl (a : MemMap) : a.Restored a := ⟨fun _ => rfl, rfl⟩

theorem SameFrames.refl (a : MemMap) : SameFrames a a := ⟨rfl, SameRegions.refl a, fun _ _ => rfl⟩

theorem SameFrames.noFrame (h : SameFrames a b) {j : Nat} (hj : a.NoFrame j) : b.NoFrame j := by
  intro r hr k hk
  obtain ⟨r', hr', heq⟩ := h.same.mem hr
  obtain ⟨-, h2, h3, -⟩ := MemRegion.of_static heq
  rw [← h3]
  refine hj r' hr' k ?_
  unfold MemRegion.frames at hk ⊢
  rwa [h2]

theorem SameFrames.trans (h : SameFrames a b) (h' : SameFrames b c) : SameFrames a c :=
  ⟨h'.memSize.trans h.memSize, h'.same.trans h.same, fun j hj => (h'.rest j (h.noFrame hj)).trans (h.rest j hj)⟩

theorem frames_of_same (h : SameRegions b a) : b.frames ⊆ a.frames := by
  rintro x ⟨r, hr, k, hk, rfl⟩
  obtain ⟨r', hr', heq⟩ := h.mem hr
  obtain ⟨h1, h2, -⟩ := MemRegion.of_static heq
  refine ⟨r', hr', k, ?_, by rw [h1]⟩
  unfold MemRegion.frames at hk ⊢
  rwa [h2]

theorem SameFrames.frames (h : SameFrames a b) : b.frames = a.frames :=
  Set.Subset.antisymm (frames_of_same h.same) (frames_of_same h.same.symm)

/-- A block of frames inside a region of one map is so in the other. -/
theorem SameFrames.inRegion (h : SameFrames a b) {blk : Nat × Nat} (hb : InRegion a.regions blk) :
    InRegion b.regions blk := by
  obtain ⟨r, hr, k, h1, h2⟩ := hb
  obtain ⟨r', hr', heq⟩ := h.same.symm.mem hr
  obtain ⟨e1, e2, -⟩ := MemRegion.of_static heq
  refine ⟨r', hr', k, by rw [h1, e1], ?_⟩
  unfold MemRegion.frames at h2 ⊢
  rwa [e2]

end

section
variable {mmap : MemMap} {r : MemRegion} {k : Nat}

theorem free_subset_frames : mmap.free ⊆ mmap.frames := by
  rintro a ⟨r, hr, k, hk, rfl, -⟩
  exact ⟨r, hr, k, hk, rfl⟩

/-- The address of a frame names its bit. -/
theorem mem_free_iff (h : WF mmap) (hr : r ∈ mmap.regions) (hk : k < r.frames) :
    r.startAddr + 4096 * k ∈ mmap.free ↔ mmap.bitmap.bit (r.bitmapStartAddr + k) = false := by
  constructor
  · rintro ⟨x, hx, i, hi, he, hb⟩
    have hl := h.len_eq hr
    have hlx := h.len_eq hx
    rcases h.apart hr hx with rfl | ⟨h1, -⟩ | ⟨h1, -⟩
    · rwa [show k = i by omega]
    · omega
    · omega
  · intro hb
    exact ⟨r, hr, k, hk, rfl, hb⟩

/-- A frame that is not free is used. -/
theorem mem_used_of_not_free {a : Nat} (ha : a ∈ mmap.frames) (hf : a ∉ mmap.free) : a ∈ mmap.used := by
  obtain ⟨r, hr, k, hk, rfl⟩ := ha
  refine ⟨r, hr, k, hk, rfl, ?_⟩
  by_contra hb
  rw [Bool.not_eq_true] at hb
  exact hf ⟨r, hr, k, hk, rfl, hb⟩

end

/-- The regions with the counts that the clear bits of `data` give. -/
def recount (data : Mem) (r : MemRegion) : MemRegion := { r with freeFrames := (freeBits data r).card }

theorem WF.map_recount {mmap : MemMap} (h : WF mmap) : mmap.regions.map (recount mmap.bitmap.data) = mmap.regions := by
  conv_rhs => rw [← List.map_id mmap.regions]
  apply List.map_congr_left
  intro r hr
  unfold recount
  rw [← h.exact r hr]
  rfl

/-- The free frames determine the map. -/
theorem SameFrames.eq_of_free {a b : MemMap} (h : SameFrames a b) (ha : WF a) (hb : WF b) (hfree : b.free = a.free) :
    b = a := by
  have hbits : ∀ j, b.bitmap.data.bit j = a.bitmap.data.bit j := by
    intro j
    by_cases hj : a.NoFrame j
    · exact h.rest j hj
    · -- the bit of a frame says whether the frame is free
      unfold MemMap.NoFrame at hj
      push Not at hj
      obtain ⟨r, hr, k, hk, rfl⟩ := hj
      obtain ⟨r', hr', heq⟩ := h.same.symm.mem hr
      obtain ⟨h1, h2, h3, -⟩ := MemRegion.of_static heq
      have hk' : k < r'.frames := by
        unfold MemRegion.frames at hk ⊢
        rwa [h2]
      have hiff := mem_free_iff hb hr' hk'
      rw [h1, h3, hfree, mem_free_iff ha hr hk] at hiff
      unfold BitMap.bit at hiff
      cases hx : b.bitmap.data.bit (r.bitmapStartAddr + k) with
      | false => rw [hiff.2 hx]
      | true =>
        cases hy : a.bitmap.data.bit (r.bitmapStartAddr + k) with
        | false => rw [hiff.1 hy] at hx; cases hx
        | true => rfl
  have hdata : b.bitmap.data = a.bitmap.data := mem_ext_bit hbits
  have hregions : b.regions = a.regions := by
    rw [← hb.map_recount, ← ha.map_recount, hdata]
    have hstatic := congrArg (List.map (recount a.bitmap.data)) h.same.2
    rwa [List.map_map, List.map_map] at hstatic
  have hmem := h.memSize
  have hsize := h.same.1
  obtain ⟨memSize, regions, size, data⟩ := a
  obtain ⟨memSize', regions', size', data'⟩ := b
  simp only at hmem hregions hsize hdata
  subst hmem hregions hsize hdata
  rfl

/-! ## Blocks taken and given back -/

section
variable {mmap : MemMap} {n start : Nat}

/-- Bits written inside a run of frames. -/
theorem sameFrames_recounted {pre post : List MemRegion} {r : MemRegion} {k c : Nat} {data : Mem} {v : Bool}
    (hr : mmap.regions = pre ++ r :: post) (hk : k + n ≤ r.frames)
    (hd : WrittenTo v mmap.bitmap.data (r.bitmapStartAddr + k) (r.bitmapStartAddr + k + n) data) :
    SameFrames mmap (recounted mmap pre r post c data) := by
  refine ⟨rfl, ⟨rfl, ?_⟩, fun j hj => ?_⟩
  · rw [hr]
    simp [recounted, MemRegion.static]
  · refine (hd j).trans (if_neg ?_)
    rintro ⟨h1, h2⟩
    exact hj r (by rw [hr]; simp) (j - r.bitmapStartAddr) (by omega) (by omega)

/-- The block `(start, n)` was taken out of the free frames. -/
structure Taken (mmap : MemMap) (start n : Nat) (mmap' : MemMap) : Prop where
  wf : WF mmap'
  same : SameFrames mmap mmap'
  inRegion : InRegion mmap.regions (start, n)
  free : blockFrames (start, n) ⊆ mmap.free
  left : mmap'.free = mmap.free \ blockFrames (start, n)

/-- Allocation fails and changes nothing, or takes a free block. -/
theorem mapAlloc_taken (h : WF mmap) (hn : 0 < n) :
    (mapAllocFrameContiguous mmap n = (frameAllocFailed, mmap) ∧ NoFit mmap n) ∨
      ∃ start mmap', mapAllocFrameContiguous mmap n = (start, mmap') ∧ ¬NoFit mmap n ∧ start ≠ frameAllocFailed ∧
        Taken mmap start n mmap' := by
  rcases mapAllocFrameContiguous_spec h hn with hfail | ⟨pre, r, post, k, data, hfit, hk, hd, heq⟩
  · exact .inl hfail
  · have hr := hfit.regions
    have hmem : r ∈ mmap.regions := by rw [hr]; simp
    have hal := (h.region r hmem).startAligned
    refine .inr ⟨_, _, heq, fun hno => hno.not_firstFit hfit, ?_, h.mark hr hk hfit.first.run hd,
      sameFrames_recounted hr hk hd, ⟨r, hmem, k, rfl, hk⟩, blockFrames_subset_free hfit hk, free_mark h.shaped hr hk hd⟩
    unfold frameAllocFailed defaultPageSize at *
    omega

theorem WF.freeFrames_le (h : WF mmap) {r : MemRegion} (hr : r ∈ mmap.regions) : r.freeFrames ≤ 2 ^ 20 + 63 := by
  have hcard : r.freeFrames ≤ 64 * r.qwordCount := by
    rw [h.exact r hr]
    exact (Finset.card_filter_le _ _).trans (by simp)
  have hq := h.qwordCount_eq hr
  have hsmall := (h.region r hr).small
  omega

/-- A request for no frames is served with the start of the map, and nothing is marked. -/
theorem mapAlloc_zero (h : WF mmap) {r : MemRegion} {rest : List MemRegion} (hr : mmap.regions = r :: rest) :
    mapAllocFrameContiguous mmap 0 = (r.startAddr, mmap) := by
  have hmem : r ∈ mmap.regions := by simp [hr]
  have haddr := (h.region r hmem).addr
  have hpos := (h.region r hmem).nonempty
  have hlen := h.len_eq hmem
  obtain ⟨q, hq⟩ : ∃ q, r.qwordCount = q + 1 := ⟨r.qwordCount - 1, by have := h.qwordCount_eq hmem; omega⟩
  -- the first word of the slice already holds as many free frames as are asked for
  have hscan : scanWords mmap.bitmap.data r.bitmapStartAddr 0 (q + 1) 0 0 0 = some 0 := by
    unfold scanWords
    simp [u32]
  have hfind : findFrames mmap.bitmap.data 0 mmap.regions = some r.startAddr := by
    rw [hr]
    unfold findFrames
    rw [if_neg (Nat.not_lt_zero _), hq, hscan]
    show some (add64 r.startAddr 0) = _
    rw [add64_of_lt (by omega), Nat.add_zero]
  unfold mapAllocFrameContiguous
  rw [hfind]
  have hstop : add64 r.startAddr (mul64 0 defaultPageSize) = r.startAddr := by
    rw [mul64_of_lt (by omega), Nat.zero_mul, add64_of_lt (by omega), Nat.add_zero]
  simp only [hstop]
  rw [setMemRegion_empty (by omega) fun x hx => (h.freeFrames_le hx).trans_lt (by decide)]

/-- A block of frames that are not free is given back. -/
theorem mapDealloc_given (h : WF mmap) (hn : 0 < n) (hin : InRegion mmap.regions (start, n))
    (hout : Disjoint (blockFrames (start, n)) mmap.free) :
    ∃ mmap', mapDeallocFrame mmap start (4096 * n) = (0, mmap') ∧ WF mmap' ∧ SameFrames mmap mmap' ∧
      mmap'.free = mmap.free ∪ blockFrames (start, n) := by
  obtain ⟨r, hr, k, hstart, hk⟩ := hin
  simp only at hstart hk
  subst hstart
  obtain ⟨pre, post, hsplit⟩ := List.append_of_mem hr
  obtain ⟨data, hd, heq⟩ := mapDeallocFrame_spec h hn hsplit hk
  have hused : ∀ j, j < n → mmap.bitmap.bit (r.bitmapStartAddr + (k + j)) = true := fun j hj =>
    block_used hr hk hout hj
  exact ⟨_, heq, h.release hsplit hk hused hd, sameFrames_recounted hsplit hk hd, free_release h hsplit hk hd⟩

end

end Icarus.Memory
