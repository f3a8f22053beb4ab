/-
Frames by the byte: `alloc_kframe` takes whole frames for a number of bytes, `dealloc_kframe` gives back as
many frames as these bytes fill.
-/
import Icarus.Memory.FrameExact

namespace Icarus.Memory

open Icarus.Base

/-- The frames that `alloc_kframe` asks for. -/
def kframeCount (size : Nat) : Nat := alignUp size defaultPageSize / defaultPageSize

/-- `alloc_kframe`. -/
def allocKframe (mmap : MemMap) (size : Nat) : Nat × MemMap := mapAllocFrameContiguous mmap (kframeCount size)

/-- `dealloc_kframe`. -/
def deallocKframe (mmap : MemMap) (start size : Nat) : Int × MemMap := mapDeallocFrame mmap start size

/-! ## The two numbers of frames -/

section
variable {size : Nat}

theorem kframeCount_eq (h : size + 4095 < 2 ^ 64) : kframeCount size = (size + 4095) / 4096 := by
  unfold kframeCount defaultPageSize
  rw [show 4096 = 2 ^ 12 from rfl, alignUp_two_pow (by decide) h]
  simp

/-- Just below the end of the address space the number is cut to 64 bits. -/
theorem kframeCount_wraps (h : size < 2 ^ 64) (h' : 2 ^ 64 ≤ size + 4095) : kframeCount size = 0 := by
  unfold kframeCount alignUp add64 u64 defaultPageSize
  rw [show 4096 = 2 ^ 12 from rfl, alignDown_two_pow (Nat.mod_lt _ (by decide)) (by decide)]
  omega

end

/-! ## Giving part of a block back -/

section
variable {mmap : MemMap} {pre post : List MemRegion} {r : MemRegion} {k n size : Nat}

/-- Bytes from the start of a frame on: one region counts the frames they fill. -/
theorem mapDeallocFrame_bytes (h : WF mmap) (hr : mmap.regions = pre ++ r :: post) (hpos : 0 < size)
    (hsize : 4096 * k + size ≤ r.lenBytes) :
    ∃ bitmap, mapDeallocFrame mmap (r.startAddr + 4096 * k) size =
      (0, { mmap with
        regions := pre ++ { r with freeFrames := add64 r.freeFrames (size / 4096) } :: post
        bitmap := bitmap }) := by
  have hmem : r ∈ mmap.regions := by simp [hr]
  have haddr := (h.region r hmem).addr
  unfold mapDeallocFrame
  rw [add64_of_lt (by omega), updateRange_eq h.shaped hr (by omega) (by omega) (by omega)]
  exact ⟨_, rfl⟩

theorem restored_count {a b : MemMap} {r' : MemRegion} {post' : List MemRegion} (h : a.Restored b)
    (ha : a.regions = pre ++ r :: post) (hb : b.regions = pre ++ r' :: post') : r'.freeFrames = r.freeFrames := by
  have hcounts := h.2
  rw [ha, hb, List.map_append, List.map_append, List.map_cons, List.map_cons] at hcounts
  exact (List.cons.inj (List.append_cancel_left hcounts)).1

/-! ## Inverse in bytes -/

/-- What `alloc_kframe` took for `size` bytes, `dealloc_kframe` of as many bytes gives back. -/
def InverseInBytes (mmap : MemMap) (size : Nat) : Prop :=
  ∀ a mmap', allocKframe mmap size = (a, mmap') → a ≠ frameAllocFailed →
    (deallocKframe mmap' a size).1 = 0 ∧ mmap.Restored (deallocKframe mmap' a size).2

/-- Whole frames come back. -/
theorem inverseInBytes_of_frames (h : WF mmap) (hpos : 1 ≤ size) (hlt : size < 2 ^ 64) (hfull : size % 4096 = 0) :
    InverseInBytes mmap size := by
  intro a mmap' halloc hne
  have hcount : kframeCount size = size / 4096 := by
    rw [kframeCount_eq (by omega)]
    omega
  unfold allocKframe at halloc
  rw [hcount] at halloc
  rcases mapAlloc_taken h (n := size / 4096) (by omega) with ⟨hfail, -⟩ | ⟨start, mmap₁, he, -, -, ht⟩
  · rw [hfail] at halloc
    cases halloc
    exact absurd rfl hne
  · rw [he] at halloc
    cases halloc
    have hout : Disjoint (blockFrames (a, size / 4096)) mmap'.free := by
      rw [ht.left]
      exact Set.disjoint_sdiff_right
    obtain ⟨mmap₂, hde, hwf, hsame, hfree⟩ := mapDealloc_given ht.wf (by omega) (ht.same.inRegion ht.inRegion) hout
    have hback : mmap₂ = mmap := by
      apply (ht.same.trans hsame).eq_of_free h hwf
      rw [hfree, ht.left, Set.sdiff_union_of_subset ht.free]
    unfold deallocKframe
    rw [show size = 4096 * (size / 4096) by omega, hde, hback]
    exact ⟨rfl, MemMap.Restored.refl mmap⟩

/-- A last frame filled in part is not given back. -/
theorem not_inverseInBytes_part (h : WF mmap) (hlt : size + 4095 < 2 ^ 64) (hpart : size % 4096 ≠ 0)
    (hfit : ¬NoFit mmap (kframeCount size)) : ¬InverseInBytes mmap size := by
  intro hinv
  have hcount := kframeCount_eq hlt
  rcases mapAllocFrameContiguous_spec h (n := kframeCount size) (by omega) with ⟨-, hno⟩ |
    ⟨pre, r, post, k, data, hff, hk, hd, he⟩
  · exact hfit hno
  · have hr := hff.regions
    have hmem : r ∈ mmap.regions := by simp [hr]
    have hal := (h.region r hmem).startAligned
    have hlen := h.len_eq hmem
    have hrun := h.counted.run_le_free hmem hff.first.run hff.first.fits
    have hbound := h.freeFrames_le hmem
    have hne : r.startAddr + 4096 * k ≠ frameAllocFailed := by
      unfold frameAllocFailed defaultPageSize at *
      omega
    obtain ⟨-, hback⟩ := hinv _ _ he hne
    have hwf := h.mark hr hk hff.first.run hd
    obtain ⟨bitmap, hde⟩ := mapDeallocFrame_bytes (r := { r with freeFrames := r.freeFrames - kframeCount size }) hwf
      rfl (by omega) (k := k) (show 4096 * k + size ≤ r.lenBytes by omega)
    unfold deallocKframe at hback
    rw [hde] at hback
    -- one frame fewer comes back than was taken
    have hsame : add64 (r.freeFrames - kframeCount size) (size / 4096) = r.freeFrames := restored_count hback hr rfl
    rw [add64_of_lt (by omega)] at hsame
    omega

/-- A size just below the end of the address space asks for no frame, and gives back more than there are. -/
theorem not_inverseInBytes_wrapped (h : WF mmap) (hlt : size < 2 ^ 64) (hwrap : 2 ^ 64 ≤ size + 4095)
    (hfit : ¬NoFit mmap (kframeCount size)) : ¬InverseInBytes mmap size := by
  intro hinv
  have hcount := kframeCount_wraps hlt hwrap
  rcases hregions : mmap.regions with - | ⟨r, rest⟩
  · refine hfit fun x hx => ?_
    rw [hregions] at hx
    cases hx
  have hmem : r ∈ mmap.regions := by simp [hregions]
  have hal := (h.region r hmem).startAligned
  have haddr := (h.region r hmem).addr
  have hpos := (h.region r hmem).nonempty
  have hbound := h.freeFrames_le hmem
  have halloc : allocKframe mmap size = (r.startAddr, mmap) := by
    unfold allocKframe
    rw [hcount]
    exact mapAlloc_zero h hregions
  have hne : r.startAddr ≠ frameAllocFailed := by
    unfold frameAllocFailed
    omega
  obtain ⟨hzero, hback⟩ := hinv _ _ halloc hne
  unfold deallocKframe mapDeallocFrame at hzero hback
  have hlast : (mmap.regions.getLastD default).endAddr + 4096 ≤ 2 ^ 64 := by
    have hlastmem : mmap.regions.getLastD default ∈ mmap.regions := by
      rw [hregions, List.getLastD_cons]
      exact List.getLastD_mem_cons ..
    have h1 := (h.region _ hlastmem).addr
    have h2 := (h.region _ hlastmem).startAligned
    have h3 := (h.region _ hlastmem).lenAligned
    rw [endAddr_eq h.shaped hlastmem]
    unfold defaultPageSize at h2 h3
    omega
  have hspan : ¬(r.startAddr < (mmap.regions.headD default).startAddr ∨
      add64 r.startAddr size > (mmap.regions.getLastD default).endAddr) := by
    intro hout
    unfold updateRange at hzero
    rw [if_pos hout] at hzero
    cases hzero
  -- the range wraps around, so its end lies below its start
  have hend : add64 r.startAddr size < r.startAddr := by
    unfold add64 u64 defaultPageSize at *
    omega
  have hholds : r.holds r.startAddr (add64 r.startAddr size) = true := by
    have := endAddr_eq h.shaped hmem
    simp only [MemRegion.holds, Bool.not_eq_true', Bool.or_eq_false_iff, decide_eq_false_iff_not]
    omega
  have hidx : mmap.regions.findIdx? (·.holds r.startAddr (add64 r.startAddr size)) = some 0 := by
    rw [hregions, List.findIdx?_cons, hholds]
    rfl
  have hafter : (updateRange add64 bitmapClearLen (size / defaultPageSize) mmap r.startAddr
      (add64 r.startAddr size)).2.regions = [] ++ { r with freeFrames := add64 r.freeFrames (size / 4096) } :: rest := by
    unfold updateRange
    rw [if_neg hspan, hidx]
    simp [hregions, defaultPageSize]
  have hsame : add64 r.freeFrames (size / 4096) = r.freeFrames :=
    restored_count hback (show mmap.regions = [] ++ r :: rest by simpa using hregions) hafter
  unfold add64 u64 at hsame
  omega

/-- The two are inverse in bytes exactly for whole frames, except where `alloc_kframe` fails: it rounds the size
up to frames and `dealloc_kframe` rounds it down. -/
theorem kframes_inverse_iff (h : WF mmap) (hpos : 1 ≤ size) (hlt : size < 2 ^ 64) :
    InverseInBytes mmap size ↔ size % 4096 = 0 ∨ NoFit mmap (kframeCount size) := by
  constructor
  · intro hinv
    by_contra hno
    rw [not_or] at hno
    by_cases hwrap : size + 4095 < 2 ^ 64
    · exact not_inverseInBytes_part h hwrap hno.1 hno.2 hinv
    · exact not_inverseInBytes_wrapped h hlt (by omega) hno.2 hinv
  · rintro (hfull | hno)
    · exact inverseInBytes_of_frames h hpos hlt hfull
    · -- a request for no frame at all always fits
      have hcount : 0 < kframeCount size ∨ mmap.regions = [] := by
        by_contra hzero
        rw [not_or, Nat.pos_iff_ne_zero, not_not] at hzero
        obtain ⟨r, hr⟩ := List.exists_mem_of_ne_nil _ hzero.2
        refine hno r hr 0 ?_ ?_
        · rw [hzero.1]
          exact Nat.zero_le _
        · intro j hj
          rw [hzero.1] at hj
          exact absurd hj (Nat.not_lt_zero j)
      intro a mmap' halloc hne
      unfold allocKframe at halloc
      rcases hcount with hcount | hempty
      · rw [mapAlloc_of_noFit (h.searchable.mono (by decide)) hcount hno] at halloc
        cases halloc
        exact absurd rfl hne
      · unfold mapAllocFrameContiguous at halloc
        rw [hempty] at halloc
        cases halloc
        exact absurd rfl hne

end

theorem kframes_inverse_iff_threeFrames :
    InverseInBytes threeFrames 8192 ↔ 8192 % 4096 = 0 ∨ NoFit threeFrames (kframeCount 8192) :=
  kframes_inverse_iff threeFrames_wf (by decide) (by decide)

/-- One byte takes a frame, and giving it back frees none. -/
theorem one_byte_not_inverse : ¬InverseInBytes threeFrames 1 := by
  intro hinv
  obtain ⟨-, -, hcounts⟩ := hinv _ _ Prod.mk.eta.symm (by decide +kernel)
  revert hcounts
  decide +kernel

end Icarus.Memory
