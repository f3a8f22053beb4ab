/-
The frame map at boot as a source of a few single frames. The padding of its slices is clear there and a region can
count frames it does not have, so that the map is not well-formed; but a slice with a free frame is searched up to that
frame only.
-/
import Icarus.Memory.BootMap
import Icarus.Memory.FrameSource

namespace Icarus.Memory

open Icarus.Base

/-- The clear bits of the frames of a region, without those of the padding. -/
def clearFrames (data : Mem) (r : MemRegion) : Finset Nat :=
  (Finset.range r.frames).filter fun j => data.bit (r.bitmapStartAddr + j) = false

/-- A map below 2 GiB that can serve `n` frames: no region counts free frames it does not have, up to that number. -/
structure Servable (n : Nat) (mmap : MemMap) : Prop where
  shaped : Shaped mmap
  low : mmap.Low
  bounded : ∀ r ∈ mmap.regions, r.freeFrames < 2 ^ 64
  counts : ∀ r ∈ mmap.regions, min n r.freeFrames ≤ (clearFrames mmap.bitmap.data r).card

section
variable {n : Nat} {mmap : MemMap} {r : MemRegion} {k : Nat}

theorem Servable.mono (h : Servable (n + 1) mmap) : Servable n mmap :=
  ⟨h.shaped, h.low, h.bounded, fun r hr => by
    have := h.counts r hr
    omega⟩

theorem Servable.frames_le (h : Servable n mmap) (hr : r ∈ mmap.regions) : r.frames ≤ 2 ^ 19 := by
  have hlow := h.low r hr
  have hlen := h.shaped.len_eq hr
  omega

/-- A free frame in a slice bounds the search, so that no bit of the padding is found. -/
theorem Servable.scanWords_one (h : Servable (n + 1) mmap) (hr : r ∈ mmap.regions) (hfree : 1 ≤ r.freeFrames)
    (hs : scanWords mmap.bitmap.data r.bitmapStartAddr 1 r.qwordCount 0 0 0 = some k) :
    k < r.frames ∧ mmap.bitmap.data.bit (r.bitmapStartAddr + k) = false := by
  have hq := h.shaped.qwordCount_eq hr
  have hle := h.frames_le hr
  have hspec := @scanWords_spec mmap.bitmap.data _ _ (h.shaped.slice_aligned hr) Nat.one_pos r.qwordCount 0 0 0
    (by omega) (by omega) (Carry.zero _ Nat.one_pos) (by simp)
  rw [hs] at hspec
  have hbit : mmap.bitmap.data.bit (r.bitmapStartAddr + k) = false := hspec.run 0 Nat.one_pos
  refine ⟨?_, hbit⟩
  obtain ⟨j, hj⟩ := Finset.card_pos.1 ((le_min (Nat.succ_le_succ (Nat.zero_le n)) hfree).trans (h.counts r hr))
  obtain ⟨hj, hclear⟩ := Finset.mem_filter.1 hj
  rw [Finset.mem_range] at hj
  by_contra hlt
  refine hspec.least j (by omega) fun i hi => ?_
  rw [show i = 0 by omega]
  exact hclear

/-- The search over the regions ends at a free frame. -/
theorem Servable.selectFrames_one (h : Servable (n + 1) mmap) :
    ∀ (pre rest : List MemRegion), mmap.regions = pre ++ rest →
    selectFrames mmap.bitmap.data 1 rest = some (r, k) →
      ∃ pre' post, mmap.regions = pre' ++ r :: post ∧ 1 ≤ r.freeFrames ∧ k < r.frames ∧
        mmap.bitmap.data.bit (r.bitmapStartAddr + k) = false
  | _, [], _, hs => by cases hs
  | pre, x :: rest, hsplit, hs => by
    have hx : x ∈ mmap.regions := by rw [hsplit]; simp
    have hnext := h.selectFrames_one (pre ++ [x]) rest (by rw [hsplit]; simp)
    unfold selectFrames at hs
    by_cases hfew : x.freeFrames < 1
    · rw [if_pos hfew] at hs
      exact hnext hs
    · rw [if_neg hfew] at hs
      cases hscan : scanWords mmap.bitmap.data x.bitmapStartAddr 1 x.qwordCount 0 0 0 with
      | none =>
        rw [hscan] at hs
        exact hnext hs
      | some i =>
        rw [hscan] at hs
        cases hs
        obtain ⟨hi, hbit⟩ := h.scanWords_one hx (by omega) hscan
        exact ⟨pre, rest, hsplit, by omega, hi, hbit⟩

theorem clearFrames_mark {data : Mem}
    (hd : WrittenTo true mmap.bitmap.data (r.bitmapStartAddr + k) (r.bitmapStartAddr + k + 1) data) :
    clearFrames data r = (clearFrames mmap.bitmap.data r).erase k := by
  ext j
  simp only [clearFrames, Finset.mem_filter, Finset.mem_range, Finset.mem_erase]
  rw [hd (r.bitmapStartAddr + j)]
  split_ifs with hj
  · constructor
    · rintro ⟨-, h⟩
      cases h
    · rintro ⟨hne, -⟩
      omega
  · constructor
    · rintro ⟨h1, h2⟩
      exact ⟨by omega, h1, h2⟩
    · rintro ⟨-, h1, h2⟩
      exact ⟨h1, h2⟩

/-- The bits of the other slices are left alone, and the one that was found is counted. -/
theorem Servable.mark (h : Servable (n + 1) mmap) {pre post : List MemRegion} {data : Mem}
    (hr : mmap.regions = pre ++ r :: post) (hk : k < r.frames)
    (hbit : mmap.bitmap.data.bit (r.bitmapStartAddr + k) = false)
    (hd : WrittenTo true mmap.bitmap.data (r.bitmapStartAddr + k) (r.bitmapStartAddr + k + 1) data) :
    Servable n (recounted mmap pre r post (r.freeFrames - 1) data) := by
  have hmem : r ∈ mmap.regions := by rw [hr]; simp
  have hq := h.shaped.qwordCount_eq hmem
  have hsame : SameRegions mmap (recounted mmap pre r post (r.freeFrames - 1) data) := by
    refine ⟨rfl, ?_⟩
    rw [hr]
    simp [recounted, MemRegion.static]
  refine ⟨h.shaped.same hsame, h.low.recounted hr, fun x hx => ?_, fun x hx => ?_⟩
  · rcases h.shaped.mem_recounted hr x hx with rfl | ⟨hx, -⟩
    · exact (Nat.sub_le r.freeFrames 1).trans_lt (h.bounded r hmem)
    · exact h.bounded x hx
  rcases h.shaped.mem_recounted hr x hx with rfl | ⟨hx, hapart⟩
  · show min n (r.freeFrames - 1) ≤ (clearFrames data r).card
    have hin : k ∈ clearFrames mmap.bitmap.data r := Finset.mem_filter.2 ⟨Finset.mem_range.2 hk, hbit⟩
    have hcount := h.counts r hmem
    rw [clearFrames_mark hd, Finset.card_erase_of_mem hin]
    omega
  · have hqx := h.shaped.qwordCount_eq hx
    have hcount : min n x.freeFrames ≤ (clearFrames mmap.bitmap.data x).card := by
      have := h.counts x hx
      omega
    refine hcount.trans (le_of_eq (congrArg Finset.card (Finset.filter_congr fun j hj => ?_)))
    rw [Finset.mem_range] at hj
    show _ ↔ data.bit (x.bitmapStartAddr + j) = false
    have hout :
        ¬(r.bitmapStartAddr + k ≤ x.bitmapStartAddr + j ∧ x.bitmapStartAddr + j < r.bitmapStartAddr + k + 1) := by
      rcases hapart with ⟨-, hb⟩ | ⟨-, hb⟩ <;> omega
    rw [hd (x.bitmapStartAddr + j), if_neg hout]

/-- `ialloc_kframe` of one frame fails and changes nothing, or takes a free frame. -/
theorem Servable.iallocKframe_one (h : Servable (n + 1) mmap) :
    iallocKframe mmap 1 = (frameAllocFailed, mmap) ∨
      ∃ a mmap', iallocKframe mmap 1 = (a, mmap') ∧ a ∈ mmap.free ∧ mmap'.free = mmap.free \ {a} ∧
        Servable n mmap' := by
  unfold iallocKframe mapAllocFrameContiguous
  rw [findFrames_eq_select]
  rcases hs : selectFrames mmap.bitmap.data 1 mmap.regions with _ | ⟨r, k⟩
  · exact .inl rfl
  · obtain ⟨pre, post, hr, hcount, hk, hbit⟩ := h.selectFrames_one [] mmap.regions rfl hs
    have hmem : r ∈ mmap.regions := by rw [hr]; simp
    have hle := h.frames_le hmem
    have hlow := h.low r hmem
    have hlen := h.shaped.len_eq hmem
    have haddr : add64 r.startAddr (u32 (k * defaultPageSize)) = r.startAddr + 4096 * k := by
      unfold defaultPageSize
      rw [u32_of_lt (by omega), add64_of_lt (by omega), Nat.mul_comm k]
    obtain ⟨data, hd, heq⟩ := @updateRange_run _ _ _ _ _ _ _ sub64 _ bitmapSetLen_spec h.shaped hr Nat.one_pos hk
    have hset : setMemRegion mmap (r.startAddr + 4096 * k) (add64 (r.startAddr + 4096 * k) (mul64 1 defaultPageSize)) =
        (0, recounted mmap pre r post (r.freeFrames - 1) data) := by
      unfold setMemRegion defaultPageSize
      rw [mul64_of_lt (by decide), add64_of_lt (by omega), Nat.one_mul,
        show r.startAddr + 4096 * k + 4096 = r.startAddr + 4096 * (k + 1) by omega, sub64_of_le (by omega) (by omega),
        show (r.startAddr + 4096 * (k + 1) - (r.startAddr + 4096 * k)) / 4096 = 1 by omega, heq,
        sub64_of_le hcount (h.bounded r hmem)]
    have hblock : blockFrames (r.startAddr + 4096 * k, 1) = {r.startAddr + 4096 * k} := by
      ext a
      exact mem_blockFrames_one
    refine .inr ⟨r.startAddr + 4096 * k, recounted mmap pre r post (r.freeFrames - 1) data, ?_,
      ⟨r, hmem, k, hk, rfl, hbit⟩, ?_, h.mark hr hk hbit hd⟩
    · simp only [Option.map_some, haddr, hset]
    · rw [free_mark h.shaped hr hk hd, hblock]

theorem Servable.free_bounds (h : Servable n mmap) {a : Nat} (ha : a ∈ mmap.free) : a % 4096 = 0 ∧ a < 2 ^ 31 := by
  obtain ⟨r, hr, k, hk, rfl, -⟩ := ha
  have hal := h.shaped.startAligned r hr
  have hlen := h.shaped.len_eq hr
  have hlow := h.low r hr
  unfold defaultPageSize at hal
  omega

end

/-- `ialloc_kframe(1, ..)` on the map as it is at boot, for the number of frames given with the map. -/
def bootSource : FrameSource (MemMap × Nat) where
  alloc
    | (mmap, 0) => (frameAllocFailed, mmap, 0)
    | (mmap, n + 1) => ((iallocKframe mmap 1).1, (iallocKframe mmap 1).2, n)
  Ok s := Servable s.2 s.1
  free s := s.1.free
  aligned := fun _ _ h hf => (h.free_bounds hf).1
  low := fun _ _ h hf => (h.free_bounds hf).2
  ok := fun
    | (_, 0), h => h
    | (mmap, n + 1), h => by
      show Servable n (iallocKframe mmap 1).2
      rcases h.iallocKframe_one with hf | ⟨a, mmap', he, -, -, hok⟩
      · rw [hf]
        exact h.mono
      · rw [he]
        exact hok
  shrinks := fun
    | (_, 0), _ => subset_rfl
    | (mmap, n + 1), h => by
      show (iallocKframe mmap 1).2.free ⊆ mmap.free
      rcases h.iallocKframe_one with hf | ⟨a, mmap', he, -, hfree, -⟩
      · rw [hf]
      · rw [he, hfree]
        exact Set.sdiff_subset
  fresh := fun
    | (_, 0), _ => .inl rfl
    | (mmap, n + 1), h => by
      show (iallocKframe mmap 1).1 = frameAllocFailed ∨
        (iallocKframe mmap 1).1 ∈ mmap.free ∧ (iallocKframe mmap 1).1 ∉ (iallocKframe mmap 1).2.free
      rcases h.iallocKframe_one with hf | ⟨a, mmap', he, hin, hfree, -⟩
      · exact .inl (by rw [hf])
      · rw [he, hfree]
        exact .inr ⟨hin, fun ha => ha.2 rfl⟩

end Icarus.Memory
