/-
The frame allocator over whole runs. On a well-formed map `map_alloc_frame_contiguous` takes the
first run of free frames out of the pool of free frames, and `map_dealloc_frame` of an outstanding
block gives it back; so every run of the two is a run of the abstract pool, and its safety is the
pool's.
-/
import Mathlib
import Icarus.Base.Pool
import Icarus.Memory.FirstFit

namespace Icarus.Memory

open Icarus.Base

/-! ## The two operations -/

section
variable {mmap : MemMap} {n : Nat}

/-- Allocation takes the first run of the first region that has one and marks it used; it fails,
and changes nothing, exactly when no region has one. -/
theorem mapAllocFrameContiguous_spec (h : WF mmap) (hn : 0 < n) :
    (mapAllocFrameContiguous mmap n = (frameAllocFailed, mmap) ∧ NoFit mmap n) ∨
    ∃ pre r post k data, FirstFit mmap n pre r post k ∧ k + n ≤ r.frames ∧
      WrittenTo true mmap.bitmap.data (r.bitmapStartAddr + k) (r.bitmapStartAddr + k + n) data ∧
      mapAllocFrameContiguous mmap n =
        (r.startAddr + 4096 * k, recounted mmap pre r post (r.freeFrames - n) data) := by
  have hsearch : Searchable (2 ^ 32) mmap := h.searchable.mono (by decide)
  have hspec := selectFrames_spec hsearch hn
  cases hs : selectFrames mmap.bitmap.data n mmap.regions with
  | none =>
    rw [hs] at hspec
    exact Or.inl ⟨mapAlloc_of_noFit hsearch hn hspec, hspec⟩
  | some s =>
    rw [hs] at hspec
    obtain ⟨pre, post, hfit⟩ := hspec
    have hmem : s.1 ∈ mmap.regions := by rw [hfit.regions]; simp
    have hk := h.counted.run_le_frames hmem hn hfit.first.run hfit.first.fits
    have hsmall := (h.region s.1 hmem).small
    obtain ⟨data, hd, heq⟩ := mapAlloc_of_firstFit h.shaped h.counted hsearch.small hn hfit (by omega)
    exact Or.inr ⟨pre, s.1, post, s.2, data, hfit, hk, hd, heq⟩

/-- Releasing a run of used frames of one region clears its bits and counts it. -/
theorem mapDeallocFrame_spec (h : WF mmap) (hn : 0 < n) {pre post : List MemRegion} {r : MemRegion} {k : Nat}
    (hr : mmap.regions = pre ++ r :: post) (hk : k + n ≤ r.frames) :
    ∃ data, WrittenTo false mmap.bitmap.data (r.bitmapStartAddr + k) (r.bitmapStartAddr + k + n) data ∧
      mapDeallocFrame mmap (r.startAddr + 4096 * k) (4096 * n) =
        (0, recounted mmap pre r post (r.freeFrames + n) data) := by
  have hmem : r ∈ mmap.regions := by rw [hr]; simp
  have hq := h.qwordCount_eq hmem
  have hslice := h.slice_le hmem
  have hlen := h.len_eq hmem
  have haddr := (h.region r hmem).addr
  have hsize := h.size_lt
  have hcard : r.freeFrames ≤ 64 * r.qwordCount := by
    rw [h.exact r hmem]
    exact (Finset.card_filter_le _ _).trans (by simp)
  obtain ⟨data, hd, heq⟩ := @updateRange_run _ _ _ _ _ _ _ add64 _ bitmapClearLen_spec h.shaped hr hn hk
  refine ⟨data, hd, ?_⟩
  unfold mapDeallocFrame defaultPageSize
  rw [add64_of_lt (by omega), Nat.add_assoc, ← Nat.mul_add, Nat.mul_div_cancel_left n (by decide), heq,
    add64_of_lt (by omega)]

end

/-! ## Runs -/

/-- The map and the outstanding blocks: the start and the number of frames of each. -/
abbrev FrameState : Type := MemMap × List (Nat × Nat)

/-- A call of `map_alloc_frame_contiguous`, successful or not, or of `map_dealloc_frame` on an
outstanding block with its own size. -/
inductive FrameStep : FrameState → FrameState → Prop
  | alloc {mmap mmap' : MemMap} {out : List (Nat × Nat)} {n start : Nat} : 1 ≤ n → n < 2 ^ 64 →
      mapAllocFrameContiguous mmap n = (start, mmap') → start ≠ frameAllocFailed →
      FrameStep (mmap, out) (mmap', (start, n) :: out)
  | allocFailed {mmap mmap' : MemMap} {out : List (Nat × Nat)} {n : Nat} : 1 ≤ n → n < 2 ^ 64 →
      mapAllocFrameContiguous mmap n = (frameAllocFailed, mmap') → FrameStep (mmap, out) (mmap', out)
  | dealloc {mmap mmap' : MemMap} {out : List (Nat × Nat)} {n start : Nat} {res : Int} : (start, n) ∈ out →
      mapDeallocFrame mmap start (4096 * n) = (res, mmap') →
      FrameStep (mmap, out) (mmap', out.erase (start, n))

/-- A block of frames inside one region. -/
def InRegion (regions : List MemRegion) (b : Nat × Nat) : Prop :=
  ∃ r ∈ regions, ∃ k, b.1 = r.startAddr + 4096 * k ∧ k + b.2 ≤ r.frames

/-- The pool a state stands for. -/
def FrameState.pool (s : FrameState) : Pool Nat (Nat × Nat) := ⟨s.1.free, s.2⟩

/-- The state invariant: the map is well-formed, and each outstanding block is a non-empty run of
frames of one region. -/
structure FrameInv (s : FrameState) : Prop where
  wf : WF s.1
  blocks : ∀ b ∈ s.2, 0 < b.2 ∧ InRegion s.1.regions b

theorem inRegion_recounted {mmap : MemMap} {pre post : List MemRegion} {r : MemRegion} {c : Nat} {data : Mem}
    {b : Nat × Nat} (hr : mmap.regions = pre ++ r :: post) (h : InRegion mmap.regions b) :
    InRegion (recounted mmap pre r post c data).regions b := by
  obtain ⟨x, hx, k, h1, h2⟩ := h
  rw [hr] at hx
  rcases List.mem_append.1 hx with hx | hx
  · exact ⟨x, List.mem_append_left _ hx, k, h1, h2⟩
  · rcases List.mem_cons.1 hx with rfl | hx
    · exact ⟨{ x with freeFrames := c }, List.mem_append_right _ (List.mem_cons_self ..), k, h1, h2⟩
    · exact ⟨x, List.mem_append_right _ (List.mem_cons_of_mem _ hx), k, h1, h2⟩

/-- A free run of the slice is a free block. -/
theorem blockFrames_subset_free {mmap : MemMap} {pre post : List MemRegion} {r : MemRegion} {k n : Nat}
    (hfit : FirstFit mmap n pre r post k) (hk : k + n ≤ r.frames) :
    blockFrames (r.startAddr + 4096 * k, n) ⊆ mmap.free := by
  rintro a ⟨j, hj, rfl⟩
  exact ⟨r, by rw [hfit.regions]; simp, k + j, by simp only at hj; omega, by simp only; ring,
    hfit.first.run j hj⟩

/-- The frames of an outstanding block are marked used. -/
theorem block_used {mmap : MemMap} {r : MemRegion} {k n : Nat} (hr : r ∈ mmap.regions) (hk : k + n ≤ r.frames)
    (hd : Disjoint (blockFrames (r.startAddr + 4096 * k, n)) mmap.free) {j : Nat} (hj : j < n) :
    mmap.bitmap.bit (r.bitmapStartAddr + (k + j)) = true := by
  cases hb : mmap.bitmap.bit (r.bitmapStartAddr + (k + j)) with
  | true => rfl
  | false =>
    refine absurd ?_ (Set.disjoint_left.1 hd ⟨j, hj, rfl⟩)
    exact ⟨r, hr, k + j, by omega, by simp only; ring, hb⟩

/-- One step keeps the invariant and is a step of the pool, or leaves the state as it is. -/
theorem FrameStep.simulates {s t : FrameState} (h : FrameStep s t) (hi : FrameInv s) {total : Set Nat}
    (hs : Pool.Sound blockFrames total s.pool) :
    FrameInv t ∧ (Pool.Step blockFrames s.pool t.pool ∨ t = s) := by
  obtain ⟨hwf, hblocks⟩ := hi
  cases h with
  | @alloc mmap mmap' out n start hn _ halloc hne =>
    rcases mapAllocFrameContiguous_spec hwf hn with ⟨heq, -⟩ | ⟨pre, r, post, k, data, hfit, hk, hd, heq⟩
    · rw [halloc, Prod.mk.injEq] at heq
      exact absurd heq.1 hne
    · rw [halloc, Prod.mk.injEq] at heq
      obtain ⟨rfl, rfl⟩ := heq
      have hr := hfit.regions
      refine ⟨⟨hwf.mark hr hk hfit.first.run hd, ?_⟩, Or.inl ?_⟩
      · intro b hb
        rcases List.mem_cons.1 hb with rfl | hb
        · exact ⟨hn, inRegion_recounted hr ⟨r, by rw [hr]; simp, k, rfl, hk⟩⟩
        · exact ⟨(hblocks b hb).1, inRegion_recounted hr (hblocks b hb).2⟩
      · unfold FrameState.pool
        rw [free_mark hwf.shaped hr hk hd]
        exact Pool.Step.take _ (blockFrames_subset_free hfit hk)
  | @allocFailed mmap mmap' out n hn _ halloc =>
    rcases mapAllocFrameContiguous_spec hwf hn with ⟨heq, -⟩ | ⟨pre, r, post, k, data, hfit, hk, hd, heq⟩
    · rw [halloc, Prod.mk.injEq] at heq
      rw [heq.2]
      exact ⟨⟨hwf, hblocks⟩, Or.inr rfl⟩
    · rw [halloc, Prod.mk.injEq] at heq
      -- a frame address is page-aligned, `FRAME_ALLOC_FAILED` is not
      have hal := (hwf.region r (by rw [hfit.regions]; simp)).startAligned
      unfold frameAllocFailed defaultPageSize at *
      omega
  | @dealloc mmap mmap' out n start res hb hde =>
    obtain ⟨hn, r, hr, k, rfl, hk⟩ := hblocks _ hb
    simp only at hk hn hde
    obtain ⟨pre, post, hsplit⟩ := List.append_of_mem hr
    obtain ⟨data, hd, heq⟩ := mapDeallocFrame_spec hwf hn hsplit hk
    rw [hde, Prod.mk.injEq] at heq
    obtain ⟨rfl, rfl⟩ := heq
    have hused := fun j (hj : j < n) => block_used hr hk (hs.held _ hb) hj
    refine ⟨⟨hwf.release hsplit hk hused hd, fun b hb => ?_⟩, Or.inl ?_⟩
    · have := hblocks b (List.mem_of_mem_erase hb)
      exact ⟨this.1, inRegion_recounted hsplit this.2⟩
    · unfold FrameState.pool
      rw [free_release hwf hsplit hk hd]
      exact Pool.Step.give _ hb

/-- Every state of a run satisfies the invariant and stands for a sound pool over the frames that
were free at the start. -/
theorem frameRun_inv {mmap : MemMap} {s : FrameState} (hwf : WF mmap)
    (h : Relation.ReflTransGen FrameStep (mmap, []) s) :
    FrameInv s ∧ Pool.Sound blockFrames mmap.free s.pool := by
  induction h with
  | refl => exact ⟨⟨hwf, by simp⟩, Pool.sound_init _⟩
  | tail _ hstep ih =>
    obtain ⟨hi, hs⟩ := ih
    obtain ⟨hi', hpool | rfl⟩ := hstep.simulates hi hs
    · exact ⟨hi', hpool.sound hs⟩
    · exact ⟨hi', hs⟩

/-- No frame is both free and used: its bit has one value. -/
theorem free_disjoint_used {mmap : MemMap} (h : WF mmap) : Disjoint mmap.free mmap.used := by
  rw [Set.disjoint_left]
  rintro a ⟨r, hr, k, hk, rfl, hb⟩ ⟨x, hx, i, hi, he, hb'⟩
  have hl := h.len_eq hr
  have hlx := h.len_eq hx
  rcases h.apart hx hr with rfl | ⟨h1, h2⟩ | ⟨h1, h2⟩
  · rw [show k = i by omega, hb'] at hb
    cases hb
  · omega
  · omega

/-- Frame allocator safety: in every run from a well-formed map the map stays well-formed, the
outstanding blocks are pairwise disjoint, each lies inside one region, and none contains a frame
that was marked used at the start. -/
theorem frame_allocator_safe {mmap : MemMap} {s : FrameState} (hwf : WF mmap)
    (h : Relation.ReflTransGen FrameStep (mmap, []) s) :
    WF s.1 ∧
    (s.2.Pairwise fun b c => Disjoint (blockFrames b) (blockFrames c)) ∧
    (∀ b ∈ s.2, ∃ r ∈ s.1.regions, r.startAddr ≤ b.1 ∧ b.1 + 4096 * b.2 ≤ r.startAddr + r.lenBytes) ∧
    ∀ b ∈ s.2, Disjoint (blockFrames b) mmap.used := by
  obtain ⟨hi, hs⟩ := frameRun_inv hwf h
  refine ⟨hi.wf, hs.disjoint, fun b hb => ?_, fun b hb => ?_⟩
  · obtain ⟨-, r, hr, k, hk, hle⟩ := hi.blocks b hb
    have := hi.wf.len_eq hr
    exact ⟨r, hr, by omega, by omega⟩
  · exact (free_disjoint_used hwf).mono_left (hs.out b hb)

/-- The state after an allocation. -/
def takeFrames (s : FrameState) (n : Nat) : FrameState :=
  ((mapAllocFrameContiguous s.1 n).2, ((mapAllocFrameContiguous s.1 n).1, n) :: s.2)

/-- The state after a block is given back. -/
def giveFrames (s : FrameState) (b : Nat × Nat) : FrameState := ((mapDeallocFrame s.1 b.1 (4096 * b.2)).2, s.2.erase b)

theorem takeFrames_step {s : FrameState} {n : Nat} (hpos : 1 ≤ n) (hn : n < 2 ^ 64)
    (h : (mapAllocFrameContiguous s.1 n).1 ≠ frameAllocFailed) : FrameStep s (takeFrames s n) := .alloc hpos hn rfl h

theorem giveFrames_step {s : FrameState} {b : Nat × Nat} (h : b ∈ s.2) : FrameStep s (giveFrames s b) := .dealloc h rfl

/-- Of three frames two are taken, then the third, and the first two are given back. -/
def twoGivenBack : FrameState := giveFrames (takeFrames (takeFrames (threeFrames, []) 2) 1) (0x100000, 2)

theorem frame_allocator_safe_threeFrames : twoGivenBack.2 = [(0x102000, 1)] ∧ WF twoGivenBack.1 ∧
    ∀ b ∈ twoGivenBack.2, Disjoint (blockFrames b) threeFrames.used := by
  have hrun : Relation.ReflTransGen FrameStep (threeFrames, []) twoGivenBack :=
    ((Relation.ReflTransGen.single (takeFrames_step (by decide) (by decide) (by decide +kernel))).tail
      (takeFrames_step (by decide) (by decide) (by decide +kernel))).tail (giveFrames_step (by decide +kernel))
  have hsafe := frame_allocator_safe threeFrames_wf hrun
  exact ⟨by decide +kernel, hsafe.1, hsafe.2.2.2⟩

end Icarus.Memory
