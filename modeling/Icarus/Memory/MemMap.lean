/-
The physical frame map of `mem_map.c`: the regions with their slices of the bitmap, the word-wise
search for a run of free frames, and the marking and releasing of frames.
-/
import Icarus.Base.Runs
import Icarus.Memory.BitMap

namespace Icarus.Memory

open Icarus.Base

/-! ## Data -/

/-- `DEFAULT_PAGE_SIZE`, the bytes a bitmap bit stands for. -/
def defaultPageSize : Nat := 4096

/-- `FRAME_ALLOC_FAILED`, `UINT64_MAX`. -/
def frameAllocFailed : Nat := 2 ^ 64 - 1

/-- `MAX_MEM_REGIONS`. -/
def maxMemRegions : Nat := 32

/-- `HUGE_PS`. -/
def hugePs : Nat := 2097152

/-- `SUPER_PS`. -/
def superPs : Nat := 1073741824

/-- `PAGE_TYPE_TO_SIZE`. The argument is a plain number: callers pass sizes and permission bits
where the enumeration (`DEFAULT_PAGE` 0, `HUGE_PAGE` 1, `SUPER_PAGE` 2) is meant. -/
def pageTypeToSize (type : Nat) : Nat :=
  if type = 2 then superPs else if type = 1 then hugePs else defaultPageSize

/-- `mem_region`: an address range and the slice of the bitmap that describes its frames. -/
structure MemRegion where
  startAddr : Nat
  lenBytes : Nat
  /-- the bit index at which the slice starts -/
  bitmapStartAddr : Nat
  /-- the 64 bit words of the slice, the last one padded -/
  qwordCount : Nat
  freeFrames : Nat
  deriving Inhabited

/-- `mem_map`; `region_count` is the length of `regions`. -/
structure MemMap where
  memSize : Nat
  regions : List MemRegion
  bitmap : BitMap

/-! ## Registration -/

/-- `memmap_register_region`. -/
def memmapRegisterRegion (mmap : MemMap) (start stop : Nat) : MemMap :=
  let len := sub64 stop start
  let realFrames := len / defaultPageSize
  let qwords := alignUp realFrames 64 / 64
  let bitmapStart := match mmap.regions.getLast? with
    | none => 0
    | some prev => add64 prev.bitmapStartAddr (mul64 prev.qwordCount 64)
  { memSize := add64 mmap.memSize len
    regions := mmap.regions ++ [⟨start, len, bitmapStart, qwords, realFrames⟩]
    bitmap := { mmap.bitmap with size := add64 mmap.bitmap.size (mul64 qwords 64) } }

/-! ## Marking and releasing -/

/-- The address behind a region. -/
def MemRegion.endAddr (r : MemRegion) : Nat := add64 r.startAddr r.lenBytes

/-- The loops of `set_mem_region`, `zero_mem_region` and `map_dealloc_frame` skip a region unless it
holds all of `[startAddr, endAddr)`. -/
def MemRegion.holds (r : MemRegion) (startAddr endAddr : Nat) : Bool :=
  !(r.startAddr > startAddr || endAddr > r.endAddr)

/-- The common body of `set_mem_region`, `zero_mem_region` and `map_dealloc_frame`: they refuse a
range outside the span of the map, and change the first region that holds the range, if any. They
differ in how the count of free frames changes and in what is written into the bitmap, whose
result none of them looks at. -/
def updateRange (count : Nat → Nat → Nat) (write : BitMap → Nat → Nat → Int × BitMap) (units : Nat)
    (mmap : MemMap) (startAddr endAddr : Nat) : Int × MemMap :=
  if startAddr < (mmap.regions.headD default).startAddr ∨
      endAddr > (mmap.regions.getLastD default).endAddr then (-1, mmap)
  else match mmap.regions.findIdx? (·.holds startAddr endAddr) with
    | none => (0, mmap)
    | some i =>
      let region := mmap.regions.getD i default
      let effective := sub64 startAddr region.startAddr
      (0, { mmap with
        regions := mmap.regions.set i { region with freeFrames := count region.freeFrames units }
        bitmap := (write mmap.bitmap (add64 region.bitmapStartAddr (effective / defaultPageSize)) units).2 })

/-- `set_mem_region`. -/
def setMemRegion (mmap : MemMap) (startAddr endAddr : Nat) : Int × MemMap :=
  updateRange sub64 bitmapSetLen (sub64 endAddr startAddr / defaultPageSize) mmap startAddr endAddr

/-- `zero_mem_region` (its `start_addr + len` is `end_addr`). -/
def zeroMemRegion (mmap : MemMap) (startAddr endAddr : Nat) : Int × MemMap :=
  updateRange add64 bitmapClearLen (sub64 endAddr startAddr / defaultPageSize) mmap startAddr endAddr

/-- `map_dealloc_frame`. -/
def mapDeallocFrame (mmap : MemMap) (physAddr pageSize : Nat) : Int × MemMap :=
  updateRange add64 bitmapClearLen (pageSize / defaultPageSize) mmap physAddr (add64 physAddr pageSize)

/-! ## The search -/

/-- `find_run_in_word`: the least bit at which `runLength` free bits start, `none` for `-1`. The
mask is shifted over itself until each of its bits stands for a run of `covered` free bits. -/
def findRunInWord (word : BitVec 64) (runLength : Nat) : Option Nat :=
  let (freeMask, covered) := whileLoop (fun (_, covered) => covered * 2 ≤ runLength)
    (fun (mask, covered) => (mask &&& (mask >>> covered), covered * 2)) runLength (~~~word, 1)
  let freeMask := if covered < runLength then freeMask &&& (freeMask >>> (runLength - covered)) else freeMask
  if freeMask = 0#64 then none else some freeMask.ctz.toNat

/-- The word loop of `map_alloc_frame_contiguous` over the `words` words left of a slice, from word
`qwordIndex` on: the index of the first frame of the run, as the 32 bit variables hold it. -/
def scanWords (data : Mem) (bitmapStart pageCount : Nat) :
    (words qwordIndex carriedRun runStart : Nat) → Option Nat
  | 0, _, _, _ => none
  | words + 1, qwordIndex, carriedRun, runStart =>
    let qword := data.load64 (bitmapStart / 8 + u32 (qwordIndex * 8))
    let runStart := if carriedRun = 0 then u32 (qwordIndex * 64) else runStart
    if qword = 0#64 then
      let carriedRun := u32 (carriedRun + 64)
      if carriedRun ≥ pageCount then some runStart
      else scanWords data bitmapStart pageCount words (qwordIndex + 1) carriedRun runStart
    else if u32 (carriedRun + qword.ctz.toNat) ≥ pageCount then some runStart
    else match if pageCount ≤ 64 then findRunInWord qword pageCount else none with
      | some bitIndex => some (u32 (qwordIndex * 64 + bitIndex))
      | none =>
        let trailingFree := qword.clz.toNat
        scanWords data bitmapStart pageCount words (qwordIndex + 1) trailingFree
          (u32 (qwordIndex * 64 + 64 - trailingFree))

/-- The region loop of `map_alloc_frame_contiguous`: the address of the first run found. The
product `run_start * DEFAULT_PAGE_SIZE` is a 32 bit one. -/
def findFrames (data : Mem) (pageCount : Nat) : List MemRegion → Option Nat
  | [] => none
  | region :: regions =>
    if region.freeFrames < pageCount then findFrames data pageCount regions
    else match scanWords data region.bitmapStartAddr pageCount region.qwordCount 0 0 0 with
      | some frame => some (add64 region.startAddr (u32 (frame * defaultPageSize)))
      | none => findFrames data pageCount regions

/-- `map_alloc_frame_contiguous`: the address of `pageCount` frames that are now marked used, or
`FRAME_ALLOC_FAILED`. -/
def mapAllocFrameContiguous (mmap : MemMap) (pageCount : Nat) : Nat × MemMap :=
  match findFrames mmap.bitmap.data pageCount mmap.regions with
  | none => (frameAllocFailed, mmap)
  | some start => (start, (setMemRegion mmap start (add64 start (mul64 pageCount defaultPageSize))).2)

/-- `ialloc_kframe`; the page type is not looked at. -/
def iallocKframe (mmap : MemMap) (pages : Nat) : Nat × MemMap := mapAllocFrameContiguous mmap pages

/-- `map_alloc_frame`: the number of frames is an 8 bit variable. -/
def mapAllocFrame (mmap : MemMap) (pageType : Nat) : Nat × MemMap :=
  mapAllocFrameContiguous mmap (pageTypeToSize pageType / defaultPageSize % 2 ^ 8)

end Icarus.Memory
