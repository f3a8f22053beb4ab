/-
The search over the regions at the full range of its 32 bit variables: it selects the first run of the
first region that has one, and the address it makes of the run is exact for the first 4 GiB of a region.
-/
import Icarus.Memory.FrameMap

namespace Icarus.Memory

open Icarus.Base

/-- The first region with a run of `n` free frames, and the start of its first run. -/
structure FirstFit (mmap : MemMap) (n : Nat) (pre : List MemRegion) (r : MemRegion) (post : List MemRegion)
    (k : Nat) : Prop where
  regions : mmap.regions = pre ++ r :: post
  before : ∀ x ∈ pre, NoRun (FreeAt mmap.bitmap.data x.bitmapStartAddr) (64 * x.qwordCount) n
  first : FirstRun (FreeAt mmap.bitmap.data r.bitmapStartAddr) (64 * r.qwordCount) n k

/-- No region has a run of `n` free frames. -/
def NoFit (mmap : MemMap) (n : Nat) : Prop :=
  ∀ x ∈ mmap.regions, NoRun (FreeAt mmap.bitmap.data x.bitmapStartAddr) (64 * x.qwordCount) n

/-- A map whose regions have fewer than `limit` frames, its slices laid out and its bitmap right. -/
structure Searchable (limit : Nat) (mmap : MemMap) : Prop where
  startAligned : ∀ r ∈ mmap.regions, r.startAddr % defaultPageSize = 0
  small : ∀ r ∈ mmap.regions, r.frames < limit
  laidOut : LaidOut mmap.bitmap.size 0 mmap.regions
  counted : Counted mmap

theorem Searchable.mono {limit limit' : Nat} {mmap : MemMap} (h : Searchable limit mmap) (hle : limit ≤ limit') :
    Searchable limit' mmap :=
  ⟨h.startAligned, fun r hr => lt_of_lt_of_le (h.small r hr) hle, h.laidOut, h.counted⟩

theorem Shaped.searchable {limit : Nat} {mmap : MemMap} (hs : Shaped mmap) (hc : Counted mmap)
    (hsmall : ∀ x ∈ mmap.regions, x.frames < limit) : Searchable limit mmap :=
  ⟨hs.startAligned, hsmall, hs.laidOut, hc⟩

theorem WF.searchable {mmap : MemMap} (h : WF mmap) : Searchable (2 ^ 31) mmap :=
  h.shaped.searchable h.counted fun r hr => lt_of_le_of_lt (h.region r hr).small (by decide)

/-- The region loop of `map_alloc_frame_contiguous` up to the address it returns: the region and the index of
the first frame. -/
def selectFrames (data : Mem) (pageCount : Nat) : List MemRegion → Option (MemRegion × Nat)
  | [] => none
  | region :: regions =>
    if region.freeFrames < pageCount then selectFrames data pageCount regions
    else match scanWords data region.bitmapStartAddr pageCount region.qwordCount 0 0 0 with
      | some frame => some (region, frame)
      | none => selectFrames data pageCount regions

theorem findFrames_eq_select (data : Mem) (n : Nat) (regions : List MemRegion) :
    findFrames data n regions =
      (selectFrames data n regions).map fun s => add64 s.1.startAddr (u32 (s.2 * defaultPageSize)) := by
  induction regions with
  | nil => rfl
  | cons r regions ih =>
    unfold findFrames selectFrames
    split_ifs
    · exact ih
    · cases scanWords data r.bitmapStartAddr n r.qwordCount 0 0 0 with
      | none => exact ih
      | some k => rfl

section
variable {mmap : MemMap} {n : Nat}

/-- The word loop over a whole slice. The padding is marked used, so no run wraps around. -/
theorem scanWords_region (h : Searchable (2 ^ 32) mmap) (hn : 0 < n) {r : MemRegion} (hr : r ∈ mmap.regions) :
    match scanWords mmap.bitmap.data r.bitmapStartAddr n r.qwordCount 0 0 0 with
    | some i => FirstRun (FreeAt mmap.bitmap.data r.bitmapStartAddr) (64 * r.qwordCount) n i
    | none => NoRun (FreeAt mmap.bitmap.data r.bitmapStartAddr) (64 * r.qwordCount) n := by
  obtain ⟨hbase, hq⟩ := h.laidOut.aligned (by simp) r hr
  have hsmall := h.small r hr
  have hlast : 64 * (0 + r.qwordCount) = 2 ^ 32 → ¬FreeAt mmap.bitmap.data r.bitmapStartAddr (2 ^ 32 - 1) := by
    intro hfull hfree
    have hpad := h.counted.padding r hr (2 ^ 32 - 1) (by omega) (by omega)
    exact Bool.false_ne_true (hfree.symm.trans hpad)
  have hspec := scanWords_spec hbase hn r.qwordCount 0 0 0 (by omega) hlast (Carry.zero _ hn) (by simp)
  rwa [Nat.zero_add] at hspec

/-- The region loop from some region on, the ones before it having no run. -/
theorem selectFrames_from (h : Searchable (2 ^ 32) mmap) (hn : 0 < n) : ∀ (pre rest : List MemRegion),
    mmap.regions = pre ++ rest →
    (∀ x ∈ pre, NoRun (FreeAt mmap.bitmap.data x.bitmapStartAddr) (64 * x.qwordCount) n) →
    match selectFrames mmap.bitmap.data n rest with
    | some (r, k) => ∃ pre post, FirstFit mmap n pre r post k
    | none => NoFit mmap n
  | pre, [], hr, hpre => by
    rw [List.append_nil] at hr
    unfold selectFrames NoFit
    rwa [hr]
  | pre, r :: rest, hr, hpre => by
    have hmem : r ∈ mmap.regions := by rw [hr]; simp
    have hnext := fun hno : NoRun (FreeAt mmap.bitmap.data r.bitmapStartAddr) (64 * r.qwordCount) n =>
      selectFrames_from h hn (pre ++ [r]) rest (by rw [hr]; simp) (fun x hx => by
        rcases List.mem_append.1 hx with hx | hx
        · exact hpre x hx
        · rw [List.mem_singleton] at hx
          exact hx ▸ hno)
    have hscan := scanWords_region h hn hmem
    unfold selectFrames
    by_cases hfew : r.freeFrames < n
    · -- the count alone rules the region out
      rw [if_pos hfew]
      apply hnext
      intro k hk hrun
      have := h.counted.run_le_free hmem hrun hk
      omega
    · rw [if_neg hfew]
      cases hs : scanWords mmap.bitmap.data r.bitmapStartAddr n r.qwordCount 0 0 0 with
      | none =>
        rw [hs] at hscan
        exact hnext hscan
      | some k =>
        rw [hs] at hscan
        exact ⟨pre, rest, hr, hpre, hscan⟩

theorem selectFrames_spec (h : Searchable (2 ^ 32) mmap) (hn : 0 < n) :
    match selectFrames mmap.bitmap.data n mmap.regions with
    | some (r, k) => ∃ pre post, FirstFit mmap n pre r post k
    | none => NoFit mmap n :=
  selectFrames_from h hn [] mmap.regions rfl (by simp)

theorem NoFit.not_firstFit (h : NoFit mmap n) {pre post : List MemRegion} {r : MemRegion} {k : Nat} :
    ¬FirstFit mmap n pre r post k :=
  fun hfit => (h r (by rw [hfit.regions]; simp)).not_firstRun hfit.first

/-- There is only one first run. -/
theorem FirstFit.unique {pre pre' post post' : List MemRegion} {r r' : MemRegion} {k k' : Nat}
    (h : FirstFit mmap n pre r post k) (h' : FirstFit mmap n pre' r' post' k') : r = r' ∧ k = k' := by
  have hsame : r = r' → r = r' ∧ k = k' := by
    rintro rfl
    exact ⟨rfl, h.first.unique h'.first⟩
  have hsplit := h.regions.symm.trans h'.regions
  rcases List.append_eq_append_iff.1 hsplit with ⟨L, hpre, hrest⟩ | ⟨L, hpre, hrest⟩
  · cases L with
    | nil => exact hsame (List.cons.inj hrest).1
    | cons x L =>
      -- the first region would lie before the other first region
      obtain rfl := (List.cons.inj hrest).1
      exact absurd h.first (h'.before r (by rw [hpre]; simp)).not_firstRun
  · cases L with
    | nil => exact hsame (List.cons.inj hrest).1.symm
    | cons x L =>
      obtain rfl := (List.cons.inj hrest).1
      exact absurd h'.first (h.before r' (by rw [hpre]; simp)).not_firstRun

/-- The loop selects a run exactly if it is the first one. -/
theorem selectFrames_iff (h : Searchable (2 ^ 32) mmap) (hn : 0 < n) {r : MemRegion} {k : Nat} :
    selectFrames mmap.bitmap.data n mmap.regions = some (r, k) ↔ ∃ pre post, FirstFit mmap n pre r post k := by
  have hspec := selectFrames_spec h hn
  constructor
  · intro hs
    rwa [hs] at hspec
  · rintro ⟨pre, post, hfit⟩
    cases hs : selectFrames mmap.bitmap.data n mmap.regions with
    | none =>
      rw [hs] at hspec
      exact absurd hfit hspec.not_firstFit
    | some s =>
      rw [hs] at hspec
      obtain ⟨pre', post', hfit'⟩ := hspec
      obtain ⟨h1, h2⟩ := hfit.unique hfit'
      rw [h1, h2]

/-- The address returned for the first run. -/
theorem mapAlloc_fst_of_firstFit (h : Searchable (2 ^ 32) mmap) (hn : 0 < n) {pre post : List MemRegion}
    {r : MemRegion} {k : Nat} (hfit : FirstFit mmap n pre r post k) :
    (mapAllocFrameContiguous mmap n).1 = add64 r.startAddr (u32 (k * defaultPageSize)) := by
  unfold mapAllocFrameContiguous
  rw [findFrames_eq_select, (selectFrames_iff h hn).2 ⟨pre, post, hfit⟩]
  rfl

/-- The search fails exactly when no region has a run: an address of a frame is page-aligned, and
`FRAME_ALLOC_FAILED` is not. -/
theorem mapAlloc_failed_iff (h : Searchable (2 ^ 32) mmap) (hn : 0 < n) :
    (mapAllocFrameContiguous mmap n).1 = frameAllocFailed ↔ NoFit mmap n := by
  have hspec := selectFrames_spec h hn
  unfold mapAllocFrameContiguous
  rw [findFrames_eq_select]
  cases hs : selectFrames mmap.bitmap.data n mmap.regions with
  | none =>
    rw [hs] at hspec
    exact iff_of_true rfl hspec
  | some s =>
    rw [hs] at hspec
    obtain ⟨pre, post, hfit⟩ := hspec
    refine iff_of_false (fun hfailed => ?_) fun hno => hno.not_firstFit hfit
    have hal := h.startAligned s.1 (by rw [hfit.regions]; simp)
    have hfailed : add64 s.1.startAddr (u32 (s.2 * defaultPageSize)) = frameAllocFailed := hfailed
    unfold add64 u64 u32 frameAllocFailed defaultPageSize at *
    omega

theorem mapAlloc_of_noFit (h : Searchable (2 ^ 32) mmap) (hn : 0 < n) (hno : NoFit mmap n) :
    mapAllocFrameContiguous mmap n = (frameAllocFailed, mmap) := by
  have hnone : selectFrames mmap.bitmap.data n mmap.regions = none := by
    rw [Option.eq_none_iff_forall_ne_some]
    rintro ⟨r, k⟩ hs
    obtain ⟨pre, post, hfit⟩ := (selectFrames_iff h hn).1 hs
    exact hno.not_firstFit hfit
  unfold mapAllocFrameContiguous
  rw [findFrames_eq_select, hnone]
  rfl

/-- The frames of a free run are marked used. -/
theorem setMemRegion_run (hs : Shaped mmap) (hc : Counted mmap) (hn : 0 < n) {pre post : List MemRegion}
    {r : MemRegion} {k : Nat} (hfit : FirstFit mmap n pre r post k) :
    ∃ data, WrittenTo true mmap.bitmap.data (r.bitmapStartAddr + k) (r.bitmapStartAddr + k + n) data ∧
      setMemRegion mmap (r.startAddr + 4096 * k)
          (add64 (r.startAddr + 4096 * k) (mul64 n defaultPageSize)) =
        (0, recounted mmap pre r post (r.freeFrames - n) data) := by
  have hr := hfit.regions
  have hmem : r ∈ mmap.regions := by rw [hr]; simp
  have hk := hc.run_le_frames hmem hn hfit.first.run hfit.first.fits
  have hfree := hc.run_le_free hmem hfit.first.run hfit.first.fits
  have hq := hs.qwordCount_eq hmem
  have hlen := hs.len_eq hmem
  have haddr := hs.addr r hmem
  have hcard : r.freeFrames ≤ 64 * r.qwordCount := by
    rw [hc.exact r hmem]
    exact (Finset.card_filter_le _ _).trans (by simp)
  obtain ⟨data, hd, heq⟩ := @updateRange_run _ _ _ _ _ _ _ sub64 _ bitmapSetLen_spec hs hr hn hk
  have hunits : sub64 (r.startAddr + 4096 * (k + n)) (r.startAddr + 4096 * k) / 4096 = n := by
    rw [sub64_of_le (by omega) (by omega)]
    omega
  refine ⟨data, hd, ?_⟩
  unfold setMemRegion defaultPageSize
  rw [mul64_of_lt (by omega), add64_of_lt (by omega), Nat.mul_comm n, Nat.add_assoc, ← Nat.mul_add, hunits, heq,
    sub64_of_le hfree (by omega)]

/-- The whole call, for a run within the first `2^20` frames of its region. -/
theorem mapAlloc_of_firstFit (hs : Shaped mmap) (hc : Counted mmap)
    (hsmall : ∀ x ∈ mmap.regions, x.frames < 2 ^ 32) (hn : 0 < n) {pre post : List MemRegion} {r : MemRegion}
    {k : Nat} (hfit : FirstFit mmap n pre r post k) (hlow : k < 2 ^ 20) :
    ∃ data, WrittenTo true mmap.bitmap.data (r.bitmapStartAddr + k) (r.bitmapStartAddr + k + n) data ∧
      mapAllocFrameContiguous mmap n =
        (r.startAddr + 4096 * k, recounted mmap pre r post (r.freeFrames - n) data) := by
  have hsearch := hs.searchable hc hsmall
  have hmem : r ∈ mmap.regions := by rw [hfit.regions]; simp
  have hk := hc.run_le_frames hmem hn hfit.first.run hfit.first.fits
  have hlen := hs.len_eq hmem
  have haddr := hs.addr r hmem
  have hexact : add64 r.startAddr (u32 (k * defaultPageSize)) = r.startAddr + 4096 * k := by
    unfold defaultPageSize
    rw [u32_of_lt (by omega), add64_of_lt (by omega), Nat.mul_comm k]
  obtain ⟨data, hd, heq⟩ := setMemRegion_run hs hc hn hfit
  refine ⟨data, hd, ?_⟩
  unfold mapAllocFrameContiguous
  rw [findFrames_eq_select, (selectFrames_iff hsearch hn).2 ⟨pre, post, hfit⟩, Option.map_some]
  simp only
  rw [hexact, heq]

/-- The word-wise search is the naive one: the region and the frame selected are the first region with `n` free
frames in a row and the least index of such a run, their address is what is returned, and the call fails
exactly when no region has such a run. -/
theorem word_search_is_first_fit (h : Searchable (2 ^ 31) mmap) (hn : 1 ≤ n) :
    (∀ r k, selectFrames mmap.bitmap.data n mmap.regions = some (r, k) ↔
      ∃ pre post, FirstFit mmap n pre r post k) ∧
    (∀ r k, selectFrames mmap.bitmap.data n mmap.regions = some (r, k) →
      (mapAllocFrameContiguous mmap n).1 = add64 r.startAddr (u32 (k * defaultPageSize))) ∧
    ((mapAllocFrameContiguous mmap n).1 = frameAllocFailed ↔ NoFit mmap n) := by
  have h32 : Searchable (2 ^ 32) mmap := h.mono (by decide)
  refine ⟨fun r k => selectFrames_iff h32 hn, fun r k hs => ?_, mapAlloc_failed_iff h32 hn⟩
  obtain ⟨pre, post, hfit⟩ := (selectFrames_iff h32 hn).1 hs
  exact mapAlloc_fst_of_firstFit h32 hn hfit

/-- A map of one region of three free frames at 1 MiB. -/
def threeFrames : MemMap :=
  { memSize := 0x103000
    regions := [⟨0x100000, 0x3000, 0, 1, 3⟩]
    bitmap := ⟨64, fun i => if i = 0 then 0xF8#8 else 0xFF#8⟩ }

theorem threeFrames_wf : WF threeFrames := by
  refine wf_single rfl ⟨by decide, by decide, by decide, by decide, by decide⟩ ⟨rfl, by decide, rfl⟩ ?_ (by decide)
  intro j h1 h2
  have h1 : 3 ≤ j := h1
  have h2 : j < 64 := h2
  interval_cases j <;> rfl

theorem word_search_is_first_fit_threeFrames :
    (mapAllocFrameContiguous threeFrames 4).1 = frameAllocFailed ↔ NoFit threeFrames 4 :=
  (word_search_is_first_fit threeFrames_wf.searchable (n := 4) (by decide)).2.2

/-! ## The address of a run -/

/-- The address of the first run is the exact one, and the bits marked are those found clear, exactly when the
run starts within the first `2^20` frames of its region: the product with the page size is one of 32 bits. -/
theorem run_address_exact_iff (hs : Shaped mmap) (hc : Counted mmap)
    (hsmall : ∀ x ∈ mmap.regions, x.frames < 2 ^ 32) (hn : 1 ≤ n) {pre post : List MemRegion} {r : MemRegion}
    {k : Nat} (hfit : FirstFit mmap n pre r post k) :
    ((mapAllocFrameContiguous mmap n).1 = r.startAddr + 4096 * k ∧
      WrittenTo true mmap.bitmap.data (r.bitmapStartAddr + k) (r.bitmapStartAddr + k + n)
        (mapAllocFrameContiguous mmap n).2.bitmap.data) ↔ k < 2 ^ 20 := by
  have hsearch := hs.searchable hc hsmall
  have hmem : r ∈ mmap.regions := by rw [hfit.regions]; simp
  have hk := hc.run_le_frames hmem hn hfit.first.run hfit.first.fits
  have hlen := hs.len_eq hmem
  have haddr := hs.addr r hmem
  have hstart := mapAlloc_fst_of_firstFit hsearch hn hfit
  constructor
  · rintro ⟨hexact, -⟩
    rw [hstart] at hexact
    have hcut : u32 (k * defaultPageSize) < 2 ^ 32 := Nat.mod_lt _ (by decide)
    have hle : u32 (k * defaultPageSize) ≤ k * defaultPageSize := Nat.mod_le _ _
    unfold defaultPageSize at *
    rw [add64_of_lt (by omega)] at hexact
    omega
  · intro hlow
    obtain ⟨data, hd, heq⟩ := mapAlloc_of_firstFit hs hc hsmall hn hfit hlow
    rw [heq]
    exact ⟨rfl, hd⟩

theorem run_address_exact_iff_threeFrames :
    ((mapAllocFrameContiguous threeFrames 2).1 = 0x100000 + 4096 * 0 ∧
      WrittenTo true threeFrames.bitmap.data (0 + 0) (0 + 0 + 2)
        (mapAllocFrameContiguous threeFrames 2).2.bitmap.data) ↔ 0 < 2 ^ 20 := by
  have hfit : FirstFit threeFrames 2 [] ⟨0x100000, 0x3000, 0, 1, 3⟩ [] 0 := by
    refine ⟨rfl, by simp, fun j hj => ?_, by decide, by simp⟩
    interval_cases j <;> rfl
  exact run_address_exact_iff threeFrames_wf.shaped threeFrames_wf.counted
    (threeFrames_wf.searchable.mono (by decide)).small (by decide) hfit

end

/-- A region at 4 GiB whose first `2^20` frames are used and whose last 64 are free. -/
def highRegion : MemRegion := ⟨0x100000000, 0x100040000, 0, 2 ^ 14 + 1, 64⟩

/-- The map of that region. -/
def highMap : MemMap := ⟨0x100040000, [highRegion], ⟨2 ^ 20 + 64, fun i => if i < 2 ^ 17 then 0xFF#8 else 0⟩⟩

theorem highMap_bit (j : Nat) : highMap.bitmap.bit j = decide (j < 2 ^ 20) := by
  unfold BitMap.bit Mem.bit highMap
  by_cases hj : j < 2 ^ 20
  · simp only [if_pos (show j / 8 < 2 ^ 17 by omega), hj, decide_true]
    have hlow : j % 8 < 8 := Nat.mod_lt _ (by decide)
    interval_cases j % 8 <;> rfl
  · simp only [if_neg (show ¬j / 8 < 2 ^ 17 by omega), hj, decide_false]
    simp

theorem highMap_searchable : Searchable (2 ^ 32) highMap := by
  have honly : ∀ r ∈ highMap.regions, r = highRegion := fun r hr => List.mem_singleton.1 hr
  refine ⟨?_, ?_, ⟨rfl, rfl, rfl⟩, ⟨?_, ?_⟩⟩
  · intro r hr
    rw [honly r hr]
    decide
  · intro r hr
    rw [honly r hr]
    decide
  · intro r hr j h1 h2
    rw [honly r hr] at h1 h2
    have h1 : 2 ^ 20 + 64 ≤ j := h1
    have h2 : j < 64 * (2 ^ 14 + 1) := h2
    omega
  · intro r hr
    rw [honly r hr]
    have hfree : freeBits highMap.bitmap.data highRegion = Finset.Ico (2 ^ 20) (2 ^ 20 + 64) := by
      ext j
      have hbit : highMap.bitmap.data.bit (highRegion.bitmapStartAddr + j) = decide (j < 2 ^ 20) := by
        rw [show highRegion.bitmapStartAddr + j = j from Nat.zero_add j]
        exact highMap_bit j
      rw [freeBits, Finset.mem_filter, hbit, Finset.mem_range, Finset.mem_Ico, decide_eq_false_iff_not]
      have hsize : 64 * highRegion.qwordCount = 2 ^ 20 + 64 := rfl
      omega
    rw [hfree, Nat.card_Ico]
    rfl

/-- The only free run starts at frame `2^20`, 4 GiB into the region, and the address returned is that of the
region's first frame, which is in use. -/
theorem run_address_wraps :
    FirstFit highMap 1 [] highRegion [] (2 ^ 20) ∧
      (mapAllocFrameContiguous highMap 1).1 ≠ highRegion.startAddr + 4096 * 2 ^ 20 := by
  have hfree : ∀ j, FreeAt highMap.bitmap.data highRegion.bitmapStartAddr j ↔ 2 ^ 20 ≤ j := by
    intro j
    have hbit := highMap_bit (highRegion.bitmapStartAddr + j)
    unfold FreeAt
    rw [show highMap.bitmap.data.bit _ = _ from hbit, show highRegion.bitmapStartAddr + j = j from Nat.zero_add j]
    simp
  have hfit : FirstFit highMap 1 [] highRegion [] (2 ^ 20) := by
    refine ⟨rfl, by simp, fun j hj => (hfree _).2 (Nat.le_add_right _ _), by decide, fun k hk hrun => ?_⟩
    have hlow := (hfree _).1 (hrun 0 (by decide))
    omega
  refine ⟨hfit, ?_⟩
  rw [mapAlloc_fst_of_firstFit highMap_searchable (by decide) hfit]
  decide

end Icarus.Memory
