/-
Reservation of address ranges (`set_mem_region`, `zero_mem_region`) and of the kernel's own memory at boot
(`handle_mb2_mmap`): a range that no single region contains is reported as done, and nothing is marked.
-/
import Icarus.Memory.BootMap
import Icarus.Memory.Paging
import Icarus.Memory.StructPage

namespace Icarus.Memory

open Icarus.Base

/-! ## What a reservation should do -/

/-- `[start, stop)` holds frame `k` of `r`. -/
def FrameIn (start stop : Nat) (r : MemRegion) (k : Nat) : Prop :=
  k < r.frames ∧ start ≤ r.startAddr + 4096 * k ∧ r.startAddr + 4096 * k < stop

/-- A call that returned 0 has written `v` into the bits of all frames of the range and no others, and one that
returned -1 has changed nothing. -/
def RangeMarked (v : Bool) (mmap : MemMap) (start stop : Nat) (res : Int × MemMap) : Prop :=
  (res.1 = 0 →
    (∀ r ∈ mmap.regions, ∀ k, FrameIn start stop r k → res.2.bitmap.bit (r.bitmapStartAddr + k) = v) ∧
    ∀ j, (∀ r ∈ mmap.regions, ∀ k, FrameIn start stop r k → j ≠ r.bitmapStartAddr + k) →
      res.2.bitmap.bit j = mmap.bitmap.bit j) ∧
  (res.1 = -1 → res.2 = mmap)

/-- The range lies outside the span of the map, or in one region, or its frames have the value already. -/
def RangeCovered (v : Bool) (mmap : MemMap) (start stop : Nat) : Prop :=
  (start < (mmap.regions.headD default).startAddr ∨ (mmap.regions.getLastD default).endAddr < stop) ∨
  (∃ r ∈ mmap.regions, r.startAddr ≤ start ∧ stop ≤ r.startAddr + r.lenBytes) ∨
  ∀ r ∈ mmap.regions, ∀ k, FrameIn start stop r k → mmap.bitmap.bit (r.bitmapStartAddr + k) = v

section
variable {mmap : MemMap} {start stop : Nat} {v : Bool}

/-- In a range inside one region the frames are those of a run of its slice. -/
theorem frameIn_iff (h : Shaped mmap) {r x : MemRegion} (hr : r ∈ mmap.regions) (hx : x ∈ mmap.regions) {k n i : Nat}
    (hk : k + n ≤ r.frames) (hi : i < x.frames) :
    FrameIn (r.startAddr + 4096 * k) (r.startAddr + 4096 * (k + n)) x i ↔
      r.bitmapStartAddr + k ≤ x.bitmapStartAddr + i ∧ x.bitmapStartAddr + i < r.bitmapStartAddr + k + n := by
  rw [← mem_run_iff h hr hk hx hi]
  have hal := h.startAligned r hr
  have halx := h.startAligned x hx
  unfold defaultPageSize at hal halx
  constructor
  · rintro ⟨-, h1, h2⟩
    exact ⟨(x.startAddr + 4096 * i - (r.startAddr + 4096 * k)) / 4096, by simp only; omega, by simp only; omega⟩
  · rintro ⟨j, hj, heq⟩
    simp only at hj heq
    exact ⟨hi, by omega, by omega⟩

/-- A range that no region contains: nothing is written, whether the call returns 0 or -1. -/
theorem updateRange_missed {count : Nat → Nat → Nat} {write : BitMap → Nat → Nat → Int × BitMap} {units : Nat}
    (h : Shaped mmap) (hin : ¬∃ r ∈ mmap.regions, r.startAddr ≤ start ∧ stop ≤ r.startAddr + r.lenBytes) :
    (updateRange count write units mmap start stop).2 = mmap := by
  have hnone : mmap.regions.findIdx? (·.holds start stop) = none := by
    rw [List.findIdx?_eq_none_iff]
    intro r hr
    have hend := endAddr_eq h hr
    simp only [MemRegion.holds, Bool.not_eq_false', Bool.or_eq_true, decide_eq_true_eq]
    by_contra hout
    rw [not_or, not_lt, not_lt, hend] at hout
    exact hin ⟨r, hr, hout⟩
  unfold updateRange
  rw [hnone]
  split_ifs <;> rfl

/-- A range within the span of the map is reported as done. -/
theorem updateRange_fst {count : Nat → Nat → Nat} {write : BitMap → Nat → Nat → Int × BitMap} {units : Nat}
    (hspan : ¬(start < (mmap.regions.headD default).startAddr ∨ (mmap.regions.getLastD default).endAddr < stop)) :
    (updateRange count write units mmap start stop).1 = 0 := by
  unfold updateRange
  rw [if_neg hspan]
  cases mmap.regions.findIdx? (·.holds start stop) with
  | none => rfl
  | some i => rfl

/-- `set_mem_region` and `zero_mem_region` differ in the count and in the value they write. -/
theorem updateRange_marked_iff {count : Nat → Nat → Nat} {write : BitMap → Nat → Nat → Int × BitMap}
    (hwrite : ∀ {map : BitMap} {start len : Nat}, map.size < 2 ^ 63 → start + len ≤ map.size →
      ∃ data, write map start len = (0, { map with data := data }) ∧
        WrittenTo v map.data start (start + len) data)
    (h : Shaped mmap) (hne : start < stop) (hstart : start % defaultPageSize = 0) (hstop : stop % defaultPageSize = 0) :
    RangeMarked v mmap start stop (updateRange count write ((stop - start) / defaultPageSize) mmap start stop) ↔
      RangeCovered v mmap start stop := by
  unfold defaultPageSize at *
  by_cases hspan : start < (mmap.regions.headD default).startAddr ∨ (mmap.regions.getLastD default).endAddr < stop
  · have hres : updateRange count write ((stop - start) / 4096) mmap start stop = (-1, mmap) := by
      unfold updateRange
      rw [if_pos hspan]
    rw [hres]
    exact iff_of_true ⟨fun h0 => absurd h0 (by simp), fun _ => rfl⟩ (Or.inl hspan)
  by_cases hin : ∃ r ∈ mmap.regions, r.startAddr ≤ start ∧ stop ≤ r.startAddr + r.lenBytes
  · -- one region contains the range: its run of frames is written
    refine iff_of_true ?_ (Or.inr (Or.inl hin))
    obtain ⟨r, hr, h1, h2⟩ := hin
    obtain ⟨pre, post, hsplit⟩ := List.append_of_mem hr
    have hal := h.startAligned r hr
    have hlen := h.len_eq hr
    unfold defaultPageSize at hal
    obtain ⟨k, hk⟩ : ∃ k, start = r.startAddr + 4096 * k := ⟨(start - r.startAddr) / 4096, by omega⟩
    obtain ⟨n, hn⟩ : ∃ n, stop = r.startAddr + 4096 * (k + n) := ⟨(stop - start) / 4096, by omega⟩
    have hframes : k + n ≤ r.frames := by omega
    obtain ⟨data, hd, heq⟩ := @updateRange_run _ _ _ _ _ _ _ count _ hwrite h hsplit (by omega) hframes
    rw [show (stop - start) / 4096 = n by omega, hk, hn, heq]
    refine ⟨fun _ => ⟨fun x hx i hi => ?_, fun j hj => ?_⟩, fun h1 => absurd h1 (by simp)⟩
    · have hrun := (frameIn_iff h hr hx hframes hi.1).1 hi
      exact (hd _).trans (if_pos hrun)
    · refine (hd j).trans (if_neg fun hrun => ?_)
      refine hj r hr (j - r.bitmapStartAddr) ?_ (by omega)
      rw [frameIn_iff h hr hr hframes (by omega)]
      omega
  · -- no region contains it: nothing is written, and 0 returned
    have hres : (updateRange count write ((stop - start) / 4096) mmap start stop).2 = mmap := updateRange_missed h hin
    have hzero : (updateRange count write ((stop - start) / 4096) mmap start stop).1 = 0 := updateRange_fst hspan
    unfold RangeMarked
    rw [hres, hzero]
    constructor
    · rintro ⟨hmarked, -⟩
      exact Or.inr (Or.inr (hmarked rfl).1)
    · rintro (hout | hone | hdone)
      · exact absurd hout hspan
      · exact absurd hone hin
      · exact ⟨fun _ => ⟨hdone, fun _ _ => rfl⟩, fun _ => rfl⟩

theorem setMemRegion_marked_iff (h : Shaped mmap) (hne : start < stop) (hstart : start % defaultPageSize = 0)
    (hstop : stop % defaultPageSize = 0) (hbound : stop < 2 ^ 64) :
    RangeMarked true mmap start stop (setMemRegion mmap start stop) ↔ RangeCovered true mmap start stop := by
  unfold setMemRegion
  rw [sub64_of_le (le_of_lt hne) hbound]
  exact updateRange_marked_iff bitmapSetLen_spec h hne hstart hstop

theorem zeroMemRegion_marked_iff (h : Shaped mmap) (hne : start < stop) (hstart : start % defaultPageSize = 0)
    (hstop : stop % defaultPageSize = 0) (hbound : stop < 2 ^ 64) :
    RangeMarked false mmap start stop (zeroMemRegion mmap start stop) ↔ RangeCovered false mmap start stop := by
  unfold zeroMemRegion
  rw [sub64_of_le (le_of_lt hne) hbound]
  exact updateRange_marked_iff bitmapClearLen_spec h hne hstart hstop

end

/-! ## `handle_mb2_mmap` -/

/-- `multiboot_mmap_entry`. -/
structure MmapEntry where
  addr : Nat
  len : Nat
  type : Nat

/-- `MULTIBOOT_MEMORY_AVAILABLE`. -/
def multibootMemoryAvailable : Nat := 1

/-- `WRITEABLE`. -/
def writeablePermission : Nat := 1 <<< writeableShift

/-- The loop of `handle_mb2_mmap` for one entry: available memory is rounded inward. -/
def registerEntry (mmap : MemMap) (entry : MmapEntry) : MemMap :=
  let mmap :=
    if add64 entry.addr entry.len > mmap.memSize then { mmap with memSize := add64 entry.addr entry.len } else mmap
  if entry.type = multibootMemoryAvailable then
    let start := alignUp entry.addr defaultPageSize
    let stop := alignDown (add64 entry.addr entry.len) defaultPageSize
    if stop > start then memmapRegisterRegion mmap start stop else mmap
  else mmap

/-- The map built from the entries of the tag. -/
def registerEntries (data : Mem) (entries : List MmapEntry) : MemMap := entries.foldl registerEntry (emptyMap data)

/-- Where the linker has put the kernel: `_kernel_start_phys`, and `_kernel_end`, a virtual address. -/
structure KernelImage where
  startPhys : Nat
  endVirt : Nat

/-- `bitmap.data` in `mem_map`, which lies at `_kernel_end`. -/
def bitmapDataOffset : Nat := 1304

/-- The range `handle_mb2_mmap` reserves starts with the frame the image starts in. -/
def KernelImage.start (image : KernelImage) : Nat := alignDown image.startPhys defaultPageSize

/-- It ends behind the bitmap, whose size in bits is taken for one in bytes. -/
def KernelImage.stop (image : KernelImage) (size : Nat) : Nat :=
  sub64 (alignUp (add64 (add64 image.endVirt bitmapDataOffset) size) defaultPageSize) kernelVma

/-- `handle_mb2_mmap` from `zero_mem_map` up to the check of `err`. -/
def reserveKernel (image : KernelImage) (mmap : MemMap) : Int × MemMap :=
  let mmap := zeroMemMap mmap
  setMemRegion mmap image.start (image.stop mmap.bitmap.size)

/-- The inner loop of `page_in_regions`; the size it works out is not used. -/
def pageInRegion (pml4 stop : Nat) : (fuel addr : Nat) → Mem → MemMap → Except Fault (Int × Mem × MemMap)
  | 0, _, _, _ => .error .outOfFuel
  | fuel + 1, addr, m, mmap =>
    if addr < stop then
      let (err, m, mmap) :=
        pageIn (iallocKframe · 1) pml4 (add64 addr kernelVma) addr hugePs writeablePermission m mmap
      if err ≠ 0 then .ok (-1, m, mmap) else pageInRegion pml4 stop fuel (add64 addr hugePs) m mmap
    else .ok (0, m, mmap)

/-- `page_in_regions`, for the regions from some one on. -/
def pageInRegions (fuel pml4 : Nat) : List MemRegion → Mem → MemMap → Except Fault (Int × Mem × MemMap)
  | [], m, mmap => .ok (0, m, mmap)
  | region :: regions, m, mmap => do
    let (err, m, mmap) ← pageInRegion pml4 region.endAddr fuel (alignUp region.startAddr hugePs) m mmap
    if err ≠ 0 then .ok (-1, m, mmap) else pageInRegions fuel pml4 regions m mmap

/-- `handle_mb2_mmap`; `data` is what lies in memory where the bitmap is put. -/
def handleMb2Mmap (fuel : Nat) (image : KernelImage) (entries : List MmapEntry) (data : Mem) (pml4 : Nat) (m : Mem) :
    Except Fault (Int × Mem × MemMap) :=
  let (err, mmap) := reserveKernel image (registerEntries data entries)
  if err ≠ 0 then .ok (-1, m, mmap) else pageInRegions fuel pml4 mmap.regions m mmap

/-! ## Marks are kept -/

/-- The same regions, and whatever is marked used in `a` is so in `b`. -/
structure Marks (a b : MemMap) : Prop where
  same : SameRegions b a
  marked : ∀ j, a.bitmap.bit j = true → b.bitmap.bit j = true

theorem Marks.refl (a : MemMap) : Marks a a := ⟨SameRegions.refl a, fun _ h => h⟩

theorem Marks.trans {a b c : MemMap} (h : Marks a b) (h' : Marks b c) : Marks a c :=
  ⟨h'.same.trans h.same, fun j hj => h'.marked j (h.marked j hj)⟩

/-- A frame that is free afterwards was free before. -/
theorem Marks.free {a b : MemMap} (h : Marks a b) : b.free ⊆ a.free := by
  rintro f ⟨r, hr, k, hk, rfl, hb⟩
  obtain ⟨r', hr', heq⟩ := h.same.mem hr
  obtain ⟨h1, h2, h3, -⟩ := MemRegion.of_static heq
  refine ⟨r', hr', k, ?_, by rw [h1], ?_⟩
  · unfold MemRegion.frames at hk ⊢
    rwa [h2]
  · rw [h3]
    by_contra hused
    rw [Bool.not_eq_false] at hused
    rw [h.marked _ hused] at hb
    cases hb

theorem setMemRegion_marks {mmap : MemMap} (hsize : mmap.bitmap.size < 2 ^ 63) (a b : Nat) :
    Marks mmap (setMemRegion mmap a b).2 := by
  refine ⟨setMemRegion_same mmap a b, fun j hj => ?_⟩
  unfold setMemRegion updateRange
  split_ifs
  · exact hj
  · cases mmap.regions.findIdx? (·.holds a b) with
    | none => exact hj
    | some i => exact bitmapSetLen_marks hsize hj

theorem iallocKframe_marks {a mmap : MemMap} (hsize : a.bitmap.size < 2 ^ 63) (h : Marks a mmap) (pages : Nat) :
    Marks a (iallocKframe mmap pages).2 := by
  unfold iallocKframe mapAllocFrameContiguous
  cases findFrames mmap.bitmap.data pages mmap.regions with
  | none => exact h
  | some start => exact h.trans (setMemRegion_marks (by rwa [h.same.1]) _ _)

theorem pageInRegion_marks {a : MemMap} (hsize : a.bitmap.size < 2 ^ 63) {pml4 stop : Nat} :
    ∀ {fuel addr : Nat} {m : Mem} {mmap : MemMap} {res : Int × Mem × MemMap}, Marks a mmap →
      pageInRegion pml4 stop fuel addr m mmap = .ok res → Marks a res.2.2
  | 0, _, _, _, _, _, hrun => by cases hrun
  | fuel + 1, addr, m, mmap, res, h, hrun => by
    have halloc : ∀ s, Marks a s → Marks a (iallocKframe s 1).2 := fun s hs => iallocKframe_marks hsize hs 1
    have hnext := @pageIn_inv _ (iallocKframe · 1) (Marks a) halloc pml4 (add64 addr kernelVma) addr hugePs
      writeablePermission m mmap h
    unfold pageInRegion at hrun
    generalize pageIn (iallocKframe · 1) pml4 (add64 addr kernelVma) addr hugePs writeablePermission m mmap = r
      at hnext hrun
    obtain ⟨err, m', mmap'⟩ := r
    dsimp only at hrun
    split_ifs at hrun
    · cases hrun
      exact hnext
    · exact pageInRegion_marks hsize hnext hrun
    · cases hrun
      exact h

theorem pageInRegions_marks {a : MemMap} (hsize : a.bitmap.size < 2 ^ 63) {fuel pml4 : Nat} :
    ∀ {regions : List MemRegion} {m : Mem} {mmap : MemMap} {res : Int × Mem × MemMap}, Marks a mmap →
      pageInRegions fuel pml4 regions m mmap = .ok res → Marks a res.2.2
  | [], _, _, _, h, hrun => by cases hrun; exact h
  | region :: regions, m, mmap, res, h, hrun => by
    obtain ⟨⟨err, m', mmap'⟩, hs, hrest⟩ := bind_eq_ok.1 hrun
    have hnext := pageInRegion_marks hsize h hs
    dsimp only at hrest
    split_ifs at hrest
    · cases hrest
      exact hnext
    · exact pageInRegions_marks hsize hnext hrest

/-! ## The kernel's own memory -/

/-- The range a multiboot entry registers, if any. -/
def MmapEntry.range (entry : MmapEntry) : Option (Nat × Nat) :=
  let start := alignUp entry.addr defaultPageSize
  let stop := alignDown (add64 entry.addr entry.len) defaultPageSize
  if entry.type = multibootMemoryAvailable ∧ stop > start then some (start, stop) else none

theorem Registered.entry {done : List (Nat × Nat)} {mmap : MemMap} (h : Registered done mmap) {entry : MmapEntry}
    (hok : RangesOK (done ++ entry.range.toList)) : Registered (done ++ entry.range.toList) (registerEntry mmap entry) := by
  -- the size that `handle_mb2_mmap` keeps in the map is not looked at
  have hsize : ∀ size, Registered done { mmap with memSize := size } :=
    fun size => ⟨h.shaped.same ⟨rfl, rfl⟩, h.fresh, h.ranges⟩
  have hpre : ∃ size, (if add64 entry.addr entry.len > mmap.memSize then
      { mmap with memSize := add64 entry.addr entry.len } else mmap) = { mmap with memSize := size } := by
    split_ifs
    · exact ⟨_, rfl⟩
    · exact ⟨mmap.memSize, rfl⟩
  obtain ⟨size, hpre⟩ := hpre
  unfold registerEntry
  rw [hpre]
  dsimp only
  unfold MmapEntry.range at hok ⊢
  dsimp only at hok ⊢
  by_cases htype : entry.type = multibootMemoryAvailable
  · by_cases hne : alignDown (add64 entry.addr entry.len) defaultPageSize > alignUp entry.addr defaultPageSize
    · rw [if_pos ⟨htype, hne⟩] at hok
      rw [if_pos htype, if_pos hne, if_pos ⟨htype, hne⟩]
      exact (hsize size).next hok
    · rw [if_pos htype, if_neg hne, if_neg fun hand => hne hand.2, Option.toList_none, List.append_nil]
      exact hsize size
  · rw [if_neg htype, if_neg fun hand => htype hand.1, Option.toList_none, List.append_nil]
    exact hsize size

theorem Registered.entries {done : List (Nat × Nat)} : ∀ {entries : List MmapEntry} {mmap : MemMap},
    Registered done mmap → RangesOK (done ++ entries.filterMap MmapEntry.range) →
    Registered (done ++ entries.filterMap MmapEntry.range) (entries.foldl registerEntry mmap)
  | [], mmap, h, _ => by rwa [List.filterMap_nil, List.append_nil]
  | entry :: entries, mmap, h, hok => by
    have hcons : (entry :: entries).filterMap MmapEntry.range =
        entry.range.toList ++ entries.filterMap MmapEntry.range := by
      cases hr : entry.range with
      | none => simp [hr]
      | some r => simp [hr]
    rw [hcons, ← List.append_assoc] at hok ⊢
    exact Registered.entries (h.entry hok.left) hok

theorem registered_entries {entries : List MmapEntry} (h : RangesOK (entries.filterMap MmapEntry.range)) (data : Mem) :
    Registered (entries.filterMap MmapEntry.range) (registerEntries data entries) := by
  have hempty : Registered [] (emptyMap data) := ⟨emptyMap_shaped data, by simp [emptyMap], rfl⟩
  exact hempty.entries h

theorem alignDown_page (x : Nat) : alignDown x defaultPageSize % defaultPageSize = 0 := by
  unfold alignDown defaultPageSize
  rw [show 4096 = 2 ^ 12 from rfl, Nat.and_mod_two_pow, show (2 ^ 64 - 1 - (2 ^ 12 - 1)) % 2 ^ 12 = 0 from rfl, Nat.and_zero]

theorem KernelImage.start_page (image : KernelImage) : image.start % defaultPageSize = 0 := by
  unfold KernelImage.start
  exact alignDown_page _

theorem KernelImage.stop_page (image : KernelImage) (size : Nat) : image.stop size % defaultPageSize = 0 := by
  have hal := alignDown_page
    (add64 (add64 (add64 image.endVirt bitmapDataOffset) size) (defaultPageSize - 1))
  unfold KernelImage.stop alignUp
  generalize alignDown _ defaultPageSize = x at hal ⊢
  unfold sub64 u64 kernelVma defaultPageSize at *
  omega

theorem KernelImage.stop_lt (image : KernelImage) (size : Nat) : image.stop size < 2 ^ 64 := by
  unfold KernelImage.stop sub64
  exact u64_lt _

/-- No frame of `[start, stop)` can be handed out. -/
def Reserved (start stop : Nat) (mmap : MemMap) : Prop := ∀ f ∈ mmap.free, ¬(start ≤ f ∧ f < stop)

theorem reserved_iff {mmap : MemMap} {start stop : Nat} : Reserved start stop mmap ↔
    ∀ r ∈ mmap.regions, ∀ k, FrameIn start stop r k → mmap.bitmap.bit (r.bitmapStartAddr + k) = true := by
  constructor
  · rintro h r hr k ⟨hk, h1, h2⟩
    by_contra hfree
    rw [Bool.not_eq_true] at hfree
    exact h _ ⟨r, hr, k, hk, rfl, hfree⟩ ⟨h1, h2⟩
  · rintro h f ⟨r, hr, k, hk, rfl, hfree⟩ ⟨h1, h2⟩
    rw [h r hr k ⟨hk, h1, h2⟩] at hfree
    cases hfree

/-- After a call that returned 0 the range is reserved exactly if it was covered. -/
theorem setMemRegion_reserved_iff {mmap : MemMap} {start stop : Nat} (h : Shaped mmap) (hne : start < stop)
    (hstart : start % defaultPageSize = 0) (hstop : stop % defaultPageSize = 0) (hbound : stop < 2 ^ 64)
    (hzero : (setMemRegion mmap start stop).1 = 0) :
    Reserved start stop (setMemRegion mmap start stop).2 ↔ RangeCovered true mmap start stop := by
  have hsame := setMemRegion_same mmap start stop
  rw [← setMemRegion_marked_iff h hne hstart hstop hbound, reserved_iff]
  have hframes : ∀ {a b : MemMap}, SameRegions a b → ∀ {bits : BitMap},
      (∀ r ∈ a.regions, ∀ k, FrameIn start stop r k → bits.bit (r.bitmapStartAddr + k) = true) →
      ∀ r ∈ b.regions, ∀ k, FrameIn start stop r k → bits.bit (r.bitmapStartAddr + k) = true := by
    rintro a b hab bits hall r hr k ⟨hk, h1, h2⟩
    obtain ⟨r', hr', heq⟩ := hab.symm.mem hr
    obtain ⟨e1, e2, e3, -⟩ := MemRegion.of_static heq
    have hk' : k < r'.frames := by
      unfold MemRegion.frames at hk ⊢
      rwa [e2]
    have hbit := hall r' hr' k ⟨hk', by rwa [e1], by rwa [e1]⟩
    rwa [e3] at hbit
  constructor
  · intro hres
    rw [setMemRegion_marked_iff h hne hstart hstop hbound]
    by_cases hin : ∃ r ∈ mmap.regions, r.startAddr ≤ start ∧ stop ≤ r.startAddr + r.lenBytes
    · exact Or.inr (Or.inl hin)
    · -- nothing was written, so the frames were marked before
      rw [show (setMemRegion mmap start stop).2 = mmap from updateRange_missed h hin] at hres
      exact Or.inr (Or.inr hres)
  · rintro ⟨hmarked, -⟩
    exact hframes hsame.symm (hmarked hzero).1

/-- Where the kernel's own range is reported as reserved, it is. -/
def ReservesKernel (image : KernelImage) (mmap : MemMap) : Prop :=
  (reserveKernel image mmap).1 = 0 →
    Reserved image.start (image.stop mmap.bitmap.size) (reserveKernel image mmap).2

/-- The same of the range of the kernel, in the map that `zero_mem_map` leaves. -/
def KernelCovered (image : KernelImage) (mmap : MemMap) : Prop :=
  RangeCovered true (zeroMemMap mmap) image.start (image.stop mmap.bitmap.size)

theorem reservesKernel_iff {image : KernelImage} {mmap : MemMap} (h : Shaped mmap)
    (hne : image.start < image.stop mmap.bitmap.size) : ReservesKernel image mmap ↔ KernelCovered image mmap := by
  have hsame := zeroMemMap_same mmap
  have hzeroed : Shaped (zeroMemMap mmap) := h.same hsame.symm
  unfold ReservesKernel KernelCovered reserveKernel
  dsimp only
  rw [hsame.1]
  generalize zeroMemMap mmap = cleared at hzeroed ⊢
  by_cases hzero : (setMemRegion cleared image.start (image.stop mmap.bitmap.size)).1 = 0
  · have hiff := setMemRegion_reserved_iff hzeroed hne image.start_page (image.stop_page _) (image.stop_lt _) hzero
    exact ⟨fun hres => hiff.1 (hres hzero), fun hcov _ => hiff.2 hcov⟩
  · refine iff_of_true (fun h0 => absurd h0 hzero) (Or.inl ?_)
    by_contra hspan
    exact hzero (updateRange_fst hspan)

/-- Paging in the regions keeps the kernel's range reserved. -/
theorem handleMb2Mmap_reserved {image : KernelImage} {entries : List MmapEntry} {data : Mem}
    (h : Shaped (registerEntries data entries)) (hres : ReservesKernel image (registerEntries data entries))
    {fuel pml4 : Nat} {m m' : Mem} {booted : MemMap}
    (hrun : handleMb2Mmap fuel image entries data pml4 m = .ok (0, m', booted)) :
    Reserved image.start (image.stop (registerEntries data entries).bitmap.size) booted := by
  have hsame : SameRegions (reserveKernel image (registerEntries data entries)).2 (registerEntries data entries) :=
    (setMemRegion_same _ _ _).trans (zeroMemMap_same _)
  have hsize := hsame.1.trans_lt h.size_lt
  unfold ReservesKernel at hres
  unfold handleMb2Mmap at hrun
  generalize reserveKernel image (registerEntries data entries) = r at hrun hres hsize
  obtain ⟨err, mmap⟩ := r
  dsimp only at hrun hres hsize
  split_ifs at hrun with herr
  · cases hrun
  · have hmarks := pageInRegions_marks hsize (Marks.refl mmap) hrun
    intro f hf
    exact hres (not_not.1 herr) f (hmarks.free hf)

/-- A reservation told the truth exactly if its range lies outside the span of the map, or inside one region, or
had nothing left to mark; the same holds of a release. Exactly under that condition the kernel's own range is
reserved at boot when it is reported to be, and then it still is when `handle_mb2_mmap` returns 0. -/
theorem reservation_truthful_iff (mmap : MemMap) (start stop : Nat) (image : KernelImage)
    (entries : List MmapEntry) (data : Mem) :
    (Shaped mmap → start < stop → start % defaultPageSize = 0 → stop % defaultPageSize = 0 → stop < 2 ^ 64 →
      (RangeMarked true mmap start stop (setMemRegion mmap start stop) ↔ RangeCovered true mmap start stop) ∧
      (RangeMarked false mmap start stop (zeroMemRegion mmap start stop) ↔ RangeCovered false mmap start stop)) ∧
    (RangesOK (entries.filterMap MmapEntry.range) →
      image.start < image.stop (registerEntries data entries).bitmap.size →
      (ReservesKernel image (registerEntries data entries) ↔ KernelCovered image (registerEntries data entries)) ∧
      (KernelCovered image (registerEntries data entries) → ∀ fuel pml4 m m' booted,
        handleMb2Mmap fuel image entries data pml4 m = .ok (0, m', booted) →
        Reserved image.start (image.stop (registerEntries data entries).bitmap.size) booted)) := by
  constructor
  · intro h hne hstart hstop hbound
    exact ⟨setMemRegion_marked_iff h hne hstart hstop hbound, zeroMemRegion_marked_iff h hne hstart hstop hbound⟩
  · intro hok hne
    have hshaped := (registered_entries hok data).shaped
    have hiff := reservesKernel_iff hshaped hne
    exact ⟨hiff, fun hcov fuel pml4 m m' booted hrun => handleMb2Mmap_reserved hshaped (hiff.2 hcov) hrun⟩

/-- Two neighbouring regions of 64 frames. -/
def neighbours : MemMap :=
  ⟨0x80000, [⟨0x100000, 0x40000, 0, 1, 64⟩, ⟨0x140000, 0x40000, 64, 1, 64⟩], ⟨128, 0⟩⟩

theorem neighbours_shaped : Shaped neighbours := by
  refine ⟨by decide, ?_, ?_, ?_, ?_, by simp [neighbours], ⟨rfl, rfl, rfl, rfl, rfl⟩⟩
  all_goals
    intro r hr
    rcases List.mem_cons.1 hr with rfl | hr
    · decide
    · rw [List.mem_singleton.1 hr]
      decide

theorem reservation_truthful_iff_inside :
    RangeMarked true neighbours 0x100000 0x104000 (setMemRegion neighbours 0x100000 0x104000) ↔
      RangeCovered true neighbours 0x100000 0x104000 :=
  ((reservation_truthful_iff neighbours 0x100000 0x104000 ⟨0x100000, 0xFFFFFFFF80140000⟩ [] fun _ => 0).1
    neighbours_shaped (by decide) (by decide) (by decide) (by decide)).1

/-- Two frames across the border: `set_mem_region` returns 0, and both are left free. -/
theorem reservation_across_regions :
    ¬RangeMarked true neighbours 0x13F000 0x141000 (setMemRegion neighbours 0x13F000 0x141000) := by
  rintro ⟨hmarked, -⟩
  have hset := (hmarked (by decide +kernel)).1 ⟨0x100000, 0x40000, 0, 1, 64⟩ (by simp [neighbours]) 63
    ⟨by decide, by decide, by decide⟩
  revert hset
  decide +kernel

end Icarus.Memory
