/-
Lists of frames (mem_map.c): `struct_page_t` lies in the first of the frames it lists, reached through
the direct map, and is named by the physical address of that frame.
-/
import Icarus.Memory.MemMap

namespace Icarus.Memory

open Icarus.Base

/-- `KERNEL_VMA`, the start of the direct map. -/
def kernelVma : Nat := 0xFFFFFFFF80000000

/-! ## Fields -/

/-- `page_count`. -/
def pageCount (m : Mem) (info : Nat) : Nat := (m.load64 info).toNat

/-- `page_size`. -/
def pageSize (m : Mem) (info : Nat) : Nat := (m.load64 (info + 8)).toNat

/-- `page_addr[i]`. -/
def pageAddr (m : Mem) (info i : Nat) : Nat := (m.load64 (info + 16 + 8 * i)).toNat

/-- `page_count = n`. -/
def setPageCount (m : Mem) (info n : Nat) : Mem := m.store64 info (BitVec.ofNat 64 n)

/-- `page_size = n`. -/
def setPageSize (m : Mem) (info n : Nat) : Mem := m.store64 (info + 8) (BitVec.ofNat 64 n)

/-- `page_addr[i] = addr`. -/
def setPageAddr (m : Mem) (info i addr : Nat) : Mem := m.store64 (info + 16 + 8 * i) (BitVec.ofNat 64 addr)

/-! ## Allocation -/

/-- The loop of `ialloc_frames` for the frames from `i` on; it stops at the first that is missing. -/
def iallocRest (pageType info : Nat) : (remaining i : Nat) → Mem → MemMap → Bool × Mem × MemMap
  | 0, _, m, mmap => (true, m, mmap)
  | remaining + 1, i, m, mmap =>
    let (addr, mmap) := mapAllocFrame mmap pageType
    let m := setPageAddr m info i addr
    if addr = frameAllocFailed then (false, m, mmap)
    else iallocRest pageType info remaining (i + 1) m mmap

/-- `ialloc_frames`; nothing stands for `FRAME_ALLOC_FAILED`. The first frame is not checked: without one
the page count is written behind the end of the direct map. Frames taken before a later one is missing
stay taken. -/
def iallocFrames (count pageType : Nat) (m : Mem) (mmap : MemMap) : Except Fault (Option Nat × Mem × MemMap) :=
  if count > 510 then .ok (none, m, mmap)
  else
    let (info, mmap) := mapAllocFrame mmap pageType
    if info = frameAllocFailed then .error (.badAddress (add64 frameAllocFailed kernelVma))
    else
      let m := setPageCount m info count
      let m := setPageAddr m info 0 info
      let m := setPageSize m info (pageTypeToSize pageType)
      match iallocRest pageType info (count - 1) 1 m mmap with
      | (true, m, mmap) => .ok (some info, m, mmap)
      | (false, m, mmap) => .ok (none, m, mmap)

/-- The loop of `idealloc_frames`; it stops at the first frame that `map_dealloc_frame` refuses. -/
def ideallocRest (m : Mem) (info : Nat) : (remaining i : Nat) → MemMap → Bool × MemMap
  | 0, _, mmap => (true, mmap)
  | remaining + 1, i, mmap =>
    let (r, mmap) := mapDeallocFrame mmap (alignDown (pageAddr m info i) (pageSize m info)) (pageSize m info)
    if r ≠ 0 then (false, mmap) else ideallocRest m info remaining (i + 1) mmap

/-- `idealloc_frames`. -/
def ideallocFrames (m : Mem) (info : Nat) (mmap : MemMap) : Int × MemMap :=
  match ideallocRest m info (pageCount m info - 1) 1 mmap with
  | (false, mmap) => (-1, mmap)
  | (true, mmap) =>
    (0, (mapDeallocFrame mmap (alignDown (pageAddr m info 0) defaultPageSize) (pageSize m info)).2)

end Icarus.Memory
