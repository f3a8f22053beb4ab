/-
The window for device memory (MMIO.c): `map_mmio` maps physical pages at a fixed distance in the table that
CR3 holds.
-/
import Icarus.Memory.Paging

namespace Icarus.Memory

open Icarus.Base

/-- `KERNEL_MMIO`. -/
def kernelMmio : Nat := 0xFFFFFE0000000000

/-- `MMIO_PHYS_TO_VIRT`. -/
def mmioPhysToVirt (phys : Nat) : Nat := add64 phys kernelMmio

section
variable {σ : Type} (alloc : σ → Nat × σ)

/-- The loop of `map_mmio` from byte `i` on; false when `page_in` failed. -/
def mapMmioLoop (pml4 start size flags : Nat) : (fuel i : Nat) → Mem → σ → Bool × Mem × σ
  | 0, _, m, s => (true, m, s)
  | fuel + 1, i, m, s =>
    if i < size then
      match pageIn alloc pml4 (mmioPhysToVirt (add64 start i)) (add64 start i) defaultPageSize flags m s with
      | (r, m, s) => if r ≠ 0 then (false, m, s) else mapMmioLoop pml4 start size flags fuel (i + defaultPageSize) m s
    else (true, m, s)

/-- `map_mmio`, with the table at `cr3`. -/
def mapMmio (cr3 physAddr size flags : Nat) (m : Mem) (s : σ) : Nat × Mem × σ :=
  let start := alignDown physAddr defaultPageSize
  match mapMmioLoop alloc cr3 start size flags (size / defaultPageSize + 1) 0 m s with
  | (mapped, m, s) => (if mapped then mmioPhysToVirt physAddr else frameAllocFailed, m, s)

end

end Icarus.Memory
