/-
The state of the kernel that making processes changes, and the heap as the rest of the kernel calls it
(alloc.c).
-/
import Icarus.Memory.HeapSafety
import Icarus.Memory.Paging
import Icarus.Memory.StructPage
import Icarus.Processes.Scheduler

namespace Icarus.Processes

open Icarus.Base Icarus.Memory

/-- Physical memory, the frame map, the kernel heap with its blocks in use, the scheduler with all control
blocks, and the counters `TID_GEN` and `PID_GEN`. -/
structure Kernel where
  mem : Mem
  mmap : MemMap
  heap : HeapRun
  sched : Sched
  tidGen : Nat
  pidGen : Nat

/-! ## The heap -/

/-- The number of frames `Imalloc_alocator` asks for when no block serves: three times the bytes of the
heap, where a number of pages is meant. -/
def growCount (heap : Heap) : Nat := alignUp (mul64 heap.heapSize 30 / 10) defaultPageSize

/-- `Imalloc`; 0 is `NULL`. A scan that visits more headers than the heap has bytes does not end. When no
block serves, what `ialloc_frames` returns is turned into a physical address and read through as it is,
in the lower half of the address space. -/
def imalloc (size : Nat) (k : Kernel) : Except Fault (Nat × Kernel) := do
  match ← imallocAlocator (k.heap.heap.limit + 1) k.heap.heap size with
  | some (addr, heap) => return (addr, { k with heap := ⟨heap, (addr, size) :: k.heap.live⟩ })
  | none =>
    match ← iallocFrames (growCount k.heap.heap) 0 k.mem k.mmap with
    | (some info, _, _) => throw (.badAddress info)
    | (none, _, _) => throw (.badAddress (sub64 frameAllocFailed kernelVma))

/-- `free` of a block of `size` bytes. -/
def ifree (addr size : Nat) (k : Kernel) : Except Fault Kernel := do
  let heap ← heapFree k.heap.heap addr
  return { k with heap := ⟨heap, k.heap.live.erase (addr, size)⟩ }

end Icarus.Processes
