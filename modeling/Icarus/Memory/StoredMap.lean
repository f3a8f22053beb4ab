/-
The frame map as it lies in memory at `_kernel_end` (mem_map.h, mem_map.c): its members, and what
`memmap_register_region` stores into them. As long as the table has room this is what registration makes of the map as a
value; whatever `region_count` is, no byte is written but those of the map and of the 256 places that the counter can
name.
-/
import Icarus.Base.Layout
import Icarus.Memory.Reservation

namespace Icarus.Memory

open Icarus.Base

/-! ## Members -/

/-- `struct MemRegion`. -/
def memRegionMembers : List Member := [.u64, .u64, .u64, .u64, .u64]

/-- `struct MemMap`, up to the size of the bitmap. -/
def memMapMembers : List Member := [.u64, .u8, .array maxMemRegions (.struct memRegionMembers), .u64]

@[simp] theorem memSize_offset : offsetOf memMapMembers 0 = 0 := by decide

@[simp] theorem regionCount_offset : offsetOf memMapMembers 1 = 8 := by decide

@[simp] theorem regions_offset : offsetOf memMapMembers 2 = 16 := by decide

@[simp] theorem bitmapSize_offset : offsetOf memMapMembers 3 = 1296 := by decide

@[simp] theorem memRegion_size : sizeOfStruct memRegionMembers = 40 := by decide

theorem memRegion_offset {i : Nat} (hi : i < 5) : offsetOf memRegionMembers i = 8 * i := by
  interval_cases i <;> decide

/-- Where the map lies in memory: `_kernel_end` is a virtual address. -/
def KernelImage.mapAddr (image : KernelImage) : Nat := sub64 image.endVirt kernelVma

/-- `mem_size`. -/
def memSizeAt (m : Mem) (mmap : Nat) : Nat := (m.load64 (mmap + offsetOf memMapMembers 0)).toNat

/-- `region_count`, of 8 bits. -/
def regionCountAt (m : Mem) (mmap : Nat) : Nat := (m.load (mmap + offsetOf memMapMembers 1) 1).toNat

/-- The address of `regions[i]`. -/
def regionAddr (mmap i : Nat) : Nat := mmap + offsetOf memMapMembers 2 + sizeOfStruct memRegionMembers * i

/-- `bitmap.size`. -/
def bitmapSizeAt (m : Mem) (mmap : Nat) : Nat := (m.load64 (mmap + offsetOf memMapMembers 3)).toNat

/-- A member of `regions[i]`. -/
def regionWord (m : Mem) (mmap i member : Nat) : Nat :=
  (m.load64 (regionAddr mmap i + offsetOf memRegionMembers member)).toNat

/-- `mem_size = n`. -/
def setMemSize (m : Mem) (mmap n : Nat) : Mem := m.store64 (mmap + offsetOf memMapMembers 0) (BitVec.ofNat 64 n)

/-- `region_count = n`. -/
def setRegionCount (m : Mem) (mmap n : Nat) : Mem := m.store (mmap + offsetOf memMapMembers 1) 1 (BitVec.ofNat 8 n)

/-- `bitmap.size = n`. -/
def setBitmapSize (m : Mem) (mmap n : Nat) : Mem := m.store64 (mmap + offsetOf memMapMembers 3) (BitVec.ofNat 64 n)

/-- A member of `regions[i]` is set. -/
def setRegionWord (m : Mem) (mmap i member n : Nat) : Mem :=
  m.store64 (regionAddr mmap i + offsetOf memRegionMembers member) (BitVec.ofNat 64 n)

/-- `regions[i]`. -/
def regionAt (m : Mem) (mmap i : Nat) : MemRegion where
  startAddr := regionWord m mmap i 0
  lenBytes := regionWord m mmap i 1
  bitmapStartAddr := regionWord m mmap i 2
  qwordCount := regionWord m mmap i 3
  freeFrames := regionWord m mmap i 4

/-- The bytes of the bitmap. -/
def bitmapDataAt (m : Mem) (mmap : Nat) : Mem := fun i => m (mmap + bitmapDataOffset + i)

/-- The map at `mmap`. -/
def mapAt (m : Mem) (mmap : Nat) : MemMap where
  memSize := memSizeAt m mmap
  regions := (List.range (regionCountAt m mmap)).map (regionAt m mmap)
  bitmap := ⟨bitmapSizeAt m mmap, bitmapDataAt m mmap⟩

/-! ## Stores -/

/-- What `handle_mb2_mmap` stores before its loop. -/
def startMap (mmap : Nat) (m : Mem) : Mem := setBitmapSize (setMemSize (setRegionCount m mmap 0) mmap 0) mmap 0

/-- `bitmap_start_addr` of a region that becomes number `i`: behind the slice of the one before. -/
def nextSlice (m : Mem) (mmap i : Nat) : Nat :=
  if i = 0 then 0 else add64 (regionWord m mmap (i - 1) 2) (mul64 (regionWord m mmap (i - 1) 3) 64)

/-- `memmap_register_region`. It does not compare `region_count` with the size of the table, and a region more than
that is stored behind `regions`, over the bitmap. -/
def registerRegion (mmap start stop : Nat) (m : Mem) : Mem :=
  let len := sub64 stop start
  let realFrames := len / defaultPageSize
  let m := setMemSize m mmap (add64 (memSizeAt m mmap) len)
  -- nothing below is stored to `region_count`, which is read each time
  let i := regionCountAt m mmap
  let m := setRegionWord m mmap i 0 start
  let m := setRegionWord m mmap i 1 len
  let m := setRegionWord m mmap i 3 (alignUp realFrames 64 / 64)
  let m := setRegionWord m mmap i 4 realFrames
  let m := setRegionWord m mmap i 2 (nextSlice m mmap i)
  let m := setBitmapSize m mmap (add64 (bitmapSizeAt m mmap) (mul64 (regionWord m mmap i 3) 64))
  setRegionCount m mmap (i + 1)

/-! ## Reads behind stores -/

section
variable {mmap i j k l n len start stop : Nat} {m m' m'' : Mem}

theorem regionWord_addr (hk : k < 5) :
    regionAddr mmap i + offsetOf memRegionMembers k = mmap + (16 + 40 * i + 8 * k) := by
  rw [memRegion_offset hk, regionAddr, regions_offset, memRegion_size]
  omega

theorem toNat_store64 (hn : n < 2 ^ 64) (a : Nat) : ((m.store64 a (BitVec.ofNat 64 n)).load64 a).toNat = n := by
  rw [Mem.load64_store64_same, BitVec.toNat_ofNat, Nat.mod_eq_of_lt hn]

theorem memSizeAt_setMemSize (hn : n < 2 ^ 64) : memSizeAt (setMemSize m mmap n) mmap = n := toNat_store64 hn _

@[simp] theorem memSizeAt_setRegionCount : memSizeAt (setRegionCount m mmap n) mmap = memSizeAt m mmap :=
  congrArg BitVec.toNat (Mem.load_store_disjoint m (.inl (by simp)))

@[simp] theorem memSizeAt_setBitmapSize : memSizeAt (setBitmapSize m mmap n) mmap = memSizeAt m mmap :=
  congrArg BitVec.toNat (Mem.load_store_disjoint m (.inl (by simp)))

@[simp] theorem memSizeAt_setRegionWord (hk : k < 5) : memSizeAt (setRegionWord m mmap i k n) mmap = memSizeAt m mmap := by
  refine congrArg BitVec.toNat (Mem.load_store_disjoint m (.inl ?_))
  rw [regionWord_addr hk, memSize_offset]
  omega

@[simp] theorem regionCountAt_setMemSize : regionCountAt (setMemSize m mmap n) mmap = regionCountAt m mmap :=
  congrArg BitVec.toNat (Mem.load_store_disjoint m (.inr (by simp)))

theorem regionCountAt_setRegionCount (hn : n < 256) : regionCountAt (setRegionCount m mmap n) mmap = n := by
  rw [regionCountAt, setRegionCount, Mem.load_store_same, BitVec.toNat_ofNat]
  exact Nat.mod_eq_of_lt hn

@[simp] theorem regionCountAt_setBitmapSize : regionCountAt (setBitmapSize m mmap n) mmap = regionCountAt m mmap :=
  congrArg BitVec.toNat (Mem.load_store_disjoint m (.inl (by simp)))

@[simp] theorem regionCountAt_setRegionWord (hk : k < 5) :
    regionCountAt (setRegionWord m mmap i k n) mmap = regionCountAt m mmap := by
  refine congrArg BitVec.toNat (Mem.load_store_disjoint m (.inl ?_))
  rw [regionWord_addr hk, regionCount_offset]
  omega

@[simp] theorem bitmapSizeAt_setMemSize : bitmapSizeAt (setMemSize m mmap n) mmap = bitmapSizeAt m mmap :=
  congrArg BitVec.toNat (Mem.load_store_disjoint m (.inr (by simp)))

@[simp] theorem bitmapSizeAt_setRegionCount : bitmapSizeAt (setRegionCount m mmap n) mmap = bitmapSizeAt m mmap :=
  congrArg BitVec.toNat (Mem.load_store_disjoint m (.inr (by simp)))

theorem bitmapSizeAt_setBitmapSize (hn : n < 2 ^ 64) : bitmapSizeAt (setBitmapSize m mmap n) mmap = n :=
  toNat_store64 hn _

@[simp] theorem bitmapSizeAt_setRegionWord (hi : i < 32) (hk : k < 5) :
    bitmapSizeAt (setRegionWord m mmap i k n) mmap = bitmapSizeAt m mmap := by
  refine congrArg BitVec.toNat (Mem.load_store_disjoint m (.inr ?_))
  rw [regionWord_addr hk, bitmapSize_offset]
  omega

@[simp] theorem regionWord_setMemSize (hk : k < 5) :
    regionWord (setMemSize m mmap n) mmap i k = regionWord m mmap i k := by
  refine congrArg BitVec.toNat (Mem.load_store_disjoint m (.inr ?_))
  rw [regionWord_addr hk, memSize_offset]
  omega

@[simp] theorem regionWord_setRegionCount (hk : k < 5) :
    regionWord (setRegionCount m mmap n) mmap i k = regionWord m mmap i k := by
  refine congrArg BitVec.toNat (Mem.load_store_disjoint m (.inr ?_))
  rw [regionWord_addr hk, regionCount_offset]
  omega

@[simp] theorem regionWord_setBitmapSize (hi : i < 32) (hk : k < 5) :
    regionWord (setBitmapSize m mmap n) mmap i k = regionWord m mmap i k := by
  refine congrArg BitVec.toNat (Mem.load_store_disjoint m (.inl ?_))
  rw [regionWord_addr hk, bitmapSize_offset]
  omega

theorem regionWord_setRegionWord (hn : n < 2 ^ 64) : regionWord (setRegionWord m mmap i k n) mmap i k = n :=
  toNat_store64 hn _

theorem regionWord_setRegionWord_of_ne (hk : k < 5) (hl : l < 5) (hne : 5 * i + k ≠ 5 * j + l) :
    regionWord (setRegionWord m mmap j l n) mmap i k = regionWord m mmap i k := by
  refine congrArg BitVec.toNat (Mem.load_store_disjoint m ?_)
  rw [regionWord_addr hk, regionWord_addr hl]
  omega

/-! ## What is left alone -/

/-- The same bytes everywhere but in so many from `a` on. -/
def SameOutside (a len : Nat) (m m' : Mem) : Prop := ∀ x, x < a ∨ a + len ≤ x → m' x = m x

/-- Every place that a counter of 8 bits can name ends before this offset. -/
def mapReach : Nat := 16 + 40 * 256

theorem SameOutside.refl (a len : Nat) (m : Mem) : SameOutside a len m m := fun _ _ => rfl

theorem SameOutside.trans (h : SameOutside mmap len m m') (h' : SameOutside mmap len m' m'') :
    SameOutside mmap len m m'' := fun x hx => (h' x hx).trans (h x hx)

theorem SameOutside.load (h : SameOutside mmap len m m') {a : Nat} (ha : a + n ≤ mmap ∨ mmap + len ≤ a) :
    m'.load a n = m.load a n := Mem.load_congr fun x h1 h2 => h x (by omega)

theorem regionCountAt_lt (m : Mem) (mmap : Nat) : regionCountAt m mmap < 256 := BitVec.isLt _

theorem store_outside {a w : Nat} {v : BitVec (8 * w)} (h1 : mmap ≤ a) (h2 : a + w ≤ mmap + len) :
    SameOutside mmap len m (m.store a w v) := fun _ _ => Mem.store_of_lt (by omega)

theorem setMemSize_outside (hlen : 1304 ≤ len) : SameOutside mmap len m (setMemSize m mmap n) :=
  store_outside (Nat.le_add_right ..) (by rw [memSize_offset]; omega)

theorem setRegionCount_outside (hlen : 1304 ≤ len) : SameOutside mmap len m (setRegionCount m mmap n) :=
  store_outside (Nat.le_add_right ..) (by rw [regionCount_offset]; omega)

theorem setBitmapSize_outside (hlen : 1304 ≤ len) : SameOutside mmap len m (setBitmapSize m mmap n) :=
  store_outside (Nat.le_add_right ..) (by rw [bitmapSize_offset]; omega)

theorem setRegionWord_outside (hi : 16 + 40 * (i + 1) ≤ len) (hk : k < 5) :
    SameOutside mmap len m (setRegionWord m mmap i k n) := by
  refine store_outside ?_ ?_ <;> rw [regionWord_addr hk] <;> omega

theorem startMap_outside (mmap : Nat) (m : Mem) : SameOutside mmap bitmapDataOffset m (startMap mmap m) :=
  ((setRegionCount_outside le_rfl).trans (setMemSize_outside le_rfl)).trans (setBitmapSize_outside le_rfl)

/-- A registration stores in the map and in the place that the counter names. -/
theorem registerRegion_outside (start stop : Nat) (hlen : 1304 ≤ len) (hi : 16 + 40 * (regionCountAt m mmap + 1) ≤ len) :
    SameOutside mmap len m (registerRegion mmap start stop m) := by
  unfold registerRegion
  dsimp only
  rw [regionCountAt_setMemSize]
  refine .trans ?_ (setRegionCount_outside hlen)
  refine .trans ?_ (setBitmapSize_outside hlen)
  iterate 5 refine .trans ?_ (setRegionWord_outside hi (by decide))
  exact setMemSize_outside hlen

/-! ## The map as a value -/

theorem mapAt_startMap (m : Mem) (mmap : Nat) :
    mapAt (startMap mmap m) mmap = emptyMap (bitmapDataAt m mmap) := by
  have hcount : regionCountAt (startMap mmap m) mmap = 0 := by
    unfold startMap
    rw [regionCountAt_setBitmapSize, regionCountAt_setMemSize, regionCountAt_setRegionCount (by decide)]
  have hmem : memSizeAt (startMap mmap m) mmap = 0 := by
    unfold startMap
    rw [memSizeAt_setBitmapSize, memSizeAt_setMemSize (by decide)]
  have hsize : bitmapSizeAt (startMap mmap m) mmap = 0 := bitmapSizeAt_setBitmapSize (by decide)
  have hdata : bitmapDataAt (startMap mmap m) mmap = bitmapDataAt m mmap :=
    funext fun i => startMap_outside mmap m _ (.inr (Nat.le_add_right ..))
  rw [mapAt, hcount, hmem, hsize, hdata]
  rfl

theorem nextSlice_lt : nextSlice m mmap i < 2 ^ 64 := by
  unfold nextSlice
  split_ifs
  · decide
  · exact u64_lt _

theorem nextSlice_setMemSize : nextSlice (setMemSize m mmap n) mmap i = nextSlice m mmap i := by
  unfold nextSlice
  simp (disch := omega) only [regionWord_setMemSize]

/-- The slice does not depend on the region that it is for. -/
theorem nextSlice_setRegionWord (hk : k < 5) : nextSlice (setRegionWord m mmap i k n) mmap i = nextSlice m mmap i := by
  unfold nextSlice
  split_ifs with hi
  · rfl
  · rw [regionWord_setRegionWord_of_ne (by decide) hk (by omega), regionWord_setRegionWord_of_ne (by decide) hk (by omega)]

theorem alignUp_lt (x a : Nat) : alignUp x a < 2 ^ 64 := lt_of_le_of_lt Nat.and_le_left (u64_lt _)

/-- What the table holds behind a registration. -/
theorem regionAt_registerRegion (hroom : regionCountAt m mmap < maxMemRegions) (hstart : start < 2 ^ 64)
    (hi : i ≤ regionCountAt m mmap) :
    regionAt (registerRegion mmap start stop m) mmap i =
      if i = regionCountAt m mmap then
        ⟨start, sub64 stop start, nextSlice m mmap (regionCountAt m mmap),
          alignUp (sub64 stop start / defaultPageSize) 64 / 64, sub64 stop start / defaultPageSize⟩
      else regionAt m mmap i := by
  unfold registerRegion
  dsimp only
  rw [regionCountAt_setMemSize]
  unfold maxMemRegions at hroom
  have hlen : sub64 stop start < 2 ^ 64 := u64_lt _
  have hframes : sub64 stop start / defaultPageSize < 2 ^ 64 := lt_of_le_of_lt (Nat.div_le_self ..) hlen
  have hqwords : alignUp (sub64 stop start / defaultPageSize) 64 / 64 < 2 ^ 64 :=
    lt_of_le_of_lt (Nat.div_le_self ..) (alignUp_lt ..)
  generalize regionCountAt m mmap = c at *
  by_cases hic : i = c
  · subst hic
    rw [if_pos rfl]
    unfold regionAt
    simp (disch := omega) only [regionWord_setRegionCount, regionWord_setBitmapSize, regionWord_setRegionWord,
      regionWord_setRegionWord_of_ne, nextSlice_setRegionWord, nextSlice_setMemSize]
    rw [regionWord_setRegionWord nextSlice_lt]
  · rw [if_neg hic]
    unfold regionAt
    simp (disch := omega) only [regionWord_setRegionCount, regionWord_setBitmapSize, regionWord_setRegionWord_of_ne,
      regionWord_setMemSize]

theorem regionCountAt_registerRegion (hroom : regionCountAt m mmap < maxMemRegions) :
    regionCountAt (registerRegion mmap start stop m) mmap = regionCountAt m mmap + 1 := by
  unfold maxMemRegions at hroom
  unfold registerRegion
  dsimp only
  rw [regionCountAt_setMemSize, regionCountAt_setRegionCount (by omega)]

theorem memSizeAt_registerRegion :
    memSizeAt (registerRegion mmap start stop m) mmap = add64 (memSizeAt m mmap) (sub64 stop start) := by
  unfold registerRegion
  dsimp only
  simp (disch := omega) only [memSizeAt_setRegionCount, memSizeAt_setBitmapSize, memSizeAt_setRegionWord]
  exact memSizeAt_setMemSize (u64_lt _)

theorem bitmapSizeAt_registerRegion (hroom : regionCountAt m mmap < maxMemRegions) :
    bitmapSizeAt (registerRegion mmap start stop m) mmap =
      add64 (bitmapSizeAt m mmap) (mul64 (alignUp (sub64 stop start / defaultPageSize) 64 / 64) 64) := by
  unfold maxMemRegions at hroom
  have hqwords : alignUp (sub64 stop start / defaultPageSize) 64 / 64 < 2 ^ 64 :=
    lt_of_le_of_lt (Nat.div_le_self ..) (alignUp_lt ..)
  unfold registerRegion
  dsimp only
  rw [regionCountAt_setMemSize]
  simp (disch := omega) only [bitmapSizeAt_setRegionCount, bitmapSizeAt_setRegionWord, bitmapSizeAt_setMemSize,
    regionWord_setRegionWord, regionWord_setRegionWord_of_ne]
  exact bitmapSizeAt_setBitmapSize (u64_lt _)

theorem nextSlice_eq (m : Mem) (mmap : Nat) : nextSlice m mmap (regionCountAt m mmap) =
    match (mapAt m mmap).regions.getLast? with
    | none => 0
    | some prev => add64 prev.bitmapStartAddr (mul64 prev.qwordCount 64) := by
  unfold nextSlice mapAt
  dsimp only
  cases regionCountAt m mmap with
  | zero => rfl
  | succ c =>
    rw [List.range_succ, List.map_append, List.map_singleton, List.getLast?_concat]
    rfl

/-- With room in the table, the map that is stored is the map that registration makes. -/
theorem mapAt_registerRegion (hroom : regionCountAt m mmap < maxMemRegions) (hstart : start < 2 ^ 64) :
    mapAt (registerRegion mmap start stop m) mmap = memmapRegisterRegion (mapAt m mmap) start stop := by
  have hdata : bitmapDataAt (registerRegion mmap start stop m) mmap = bitmapDataAt m mmap := by
    unfold maxMemRegions at hroom
    exact funext fun i => registerRegion_outside start stop le_rfl (by omega) _ (.inr (Nat.le_add_right ..))
  have hold : ∀ i ∈ List.range (regionCountAt m mmap),
      regionAt (registerRegion mmap start stop m) mmap i = regionAt m mmap i := by
    intro i hi
    rw [List.mem_range] at hi
    rw [regionAt_registerRegion hroom hstart hi.le, if_neg hi.ne]
  rw [mapAt, memSizeAt_registerRegion, bitmapSizeAt_registerRegion hroom, hdata,
    regionCountAt_registerRegion hroom, List.range_succ, List.map_append, List.map_congr_left hold, List.map_singleton,
    regionAt_registerRegion hroom hstart le_rfl, if_pos rfl, nextSlice_eq]
  rfl

end

end Icarus.Memory
