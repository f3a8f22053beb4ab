/-
The whole of `Imalloc_alocator` (alloc.c) with the part that asks the kernel for more memory, and `Icalloc` on top of it.
The number of bytes that is asked for is taken for a number of pages, so the request is turned down, and the answer is
read through as if it were a list of frames.
-/
import Icarus.Memory.HeapFit
import Icarus.Memory.PageLoops
import Icarus.Processes.Construction

namespace Icarus.Alloc

open Icarus.Base Icarus.Memory Icarus.Processes Relation

/-! ## The loaded address space -/

/-- Where a byte of the address space lies that CR3 has loaded. -/
def physOf (m : Mem) (cr3 va : Nat) : Except Fault Nat :=
  if va < 2 ^ 47 ∨ 2 ^ 64 - 2 ^ 47 ≤ va then
    match translateByte m cr3 va with
    | some pa => .ok pa
    | none => .error (.badAddress va)
  else .error (.badAddress va)

/-- The `n` bytes at `va`, the lowest address least significant. -/
def loadVirt (m : Mem) (cr3 : Nat) : (n va : Nat) → Except Fault (BitVec (8 * n))
  | 0, _ => .ok 0#0
  | n + 1, va => do
    let pa ← physOf m cr3 va
    let rest ← loadVirt m cr3 n (add64 va 1)
    return rest ++ m pa

/-- A quadword of the address space. -/
def readWord (k : Kernel) (va : Nat) : Except Fault Nat := do
  let w ← loadVirt k.mem k.sched.cr3 8 va
  return w.toNat

/-- Writes one byte: in the pages of the heap, or elsewhere. -/
def storeByte (k : Kernel) (va : Nat) (v : BitVec 8) : Except Fault Kernel :=
  let h := k.heap.heap
  if h.heapStart ≤ va + metaDataSize ∧ va < h.limit then
    .ok { k with heap := { k.heap with heap := { h with mem := Function.update h.mem va v } } }
  else do
    let pa ← physOf k.mem k.sched.cr3 va
    return { k with mem := Function.update k.mem pa v }

/-- `Imemset` of the `length` bytes at `addr`. -/
def imemset (v : BitVec 8) : (length addr : Nat) → Kernel → Except Fault Kernel
  | 0, _, k => .ok k
  | length + 1, addr, k => do
    let k ← storeByte k addr v
    imemset v length (add64 addr 1) k

/-! ## More memory -/

/-- `page_in` with the pointer `read_cr3()`: the physical address of the table, used as it is. -/
def pageInCr3 (va pa : Nat) (k : Kernel) : Except Fault (Int × Kernel) := do
  let entry ← physOf k.mem k.sched.cr3 (k.sched.cr3 + 8 * vaPml4Index va)
  let (r, mem, mmap) := pageIn (iallocKframe · 1) (entry / 4096 * 4096) va pa defaultPageSize writeable k.mem k.mmap
  return (r, { k with mem, mmap })

/-- A page behind the heap that shows a frame. -/
def showFrame (h : Heap) (m : Mem) (va frame : Nat) : Heap :=
  { h with mem := h.mem.copy (va / 4096 * 4096) m (frame / 4096 * 4096) 4096, limit := va / 4096 * 4096 + 4096 }

/-- `map_frame_into_heap` from page `i` of the list at `info` on. -/
def mapFrameIntoHeap (info : Nat) : (fuel i : Nat) → Kernel → Except Fault (Int × Kernel)
  | 0, _, _ => .error .outOfFuel
  | fuel + 1, i, k => do
    let count ← readWord k info
    if i < count then
      let frame ← readWord k (add64 info (16 + 8 * i))
      let h := k.heap.heap
      let va := add64 (add64 h.heapStart h.heapSize) (mul64 i defaultPageSize)
      let (r, k) ← pageInCr3 va frame k
      if r ≠ 0 then return (-1, k)
      mapFrameIntoHeap info fuel (i + 1) { k with heap := { k.heap with heap := showFrame h k.mem va frame } }
    else return (0, k)

/-- What `Imalloc_alocator` takes for the physical address of the list of new frames. -/
def growInfo : Option Nat → Nat
  | some info => info
  | none => sub64 frameAllocFailed kernelVma

/-- The part of `Imalloc_alocator` behind its inner loop. -/
def growHeap (fuel : Nat) (k : Kernel) : Except Fault (Nat × Kernel) := do
  let (r, mem, mmap) ← iallocFrames (growCount k.heap.heap) 0 k.mem k.mmap
  let info := growInfo r
  let (r, k) ← mapFrameIntoHeap info fuel 0 { k with mem, mmap }
  if r ≠ 0 then return (0, k)
  let count ← readWord k info
  let h := k.heap.heap
  let h := { h with heapSize := add64 h.heapSize (mul64 count defaultPageSize) }
  return (frameAllocFailed, { k with heap := { k.heap with heap := h } })

/-- `Imalloc_alocator`. -/
def imallocGrow (fuel size : Nat) (k : Kernel) : Except Fault (Nat × Kernel) := do
  match ← imallocAlocator fuel k.heap.heap size with
  | some (addr, heap) => return (addr, { k with heap := ⟨heap, (addr, size) :: k.heap.live⟩ })
  | none => growHeap fuel k

/-- `Icalloc`. -/
def icalloc (fuel units unitSize : Nat) (k : Kernel) : Except Fault (Nat × Kernel) := do
  let size := mul64 units unitSize
  let (ptr, k) ← imallocGrow fuel size k
  let k ← imemset 0 size ptr k
  return (ptr, k)

/-! ## What the kernel's tables promise -/

/-- The heap is tiled, behind its allocator, in one half of the address space and below the direct map, and the table in
CR3 is not mapped at its physical address: the lower half of the kernel's tables is empty but for the screen. -/
structure KernelHeap (k : Kernel) (bs : List Nat) : Prop where
  tiled : HeapTiled k.heap.heap bs
  front : metaDataSize ≤ k.heap.heap.heapStart
  below : k.heap.heap.limit ≤ kernelVma
  half : k.heap.heap.stop ≤ 2 ^ 47 ∨ 2 ^ 64 - 2 ^ 47 ≤ k.heap.heap.heapStart
  root : ∀ i < 512, translateByte k.mem k.sched.cr3 (k.sched.cr3 + 8 * i) = none

/-- `KERNEL_VIRT_TO_PHYS(FRAME_ALLOC_FAILED)`, where the list of new frames is looked for. -/
def refusedInfo : Nat := sub64 frameAllocFailed kernelVma

theorem vaPml4Index_lt (va : Nat) : vaPml4Index va < 512 := by
  unfold vaPml4Index vaIndexMask
  exact Nat.lt_succ_of_le Nat.and_le_right

section
variable {k k' : Kernel} {bs : List Nat} {fuel size r : Nat}

/-- Three times the bytes of the heap are more pages than a list has room for. -/
theorem growCount_large (hk : KernelHeap k bs) : 510 < growCount k.heap.heap := by
  have hle := hk.tiled.tiled.le
  have hfront := hk.front
  have hbound := hk.tiled.bound
  have hhalf := hk.half
  unfold Heap.stop at hle hhalf
  unfold metaDataSize at hfront
  have hthree : mul64 k.heap.heap.heapSize 30 / 10 = k.heap.heap.heapSize * 3 := by
    rw [mul64_of_lt (by omega)]
    omega
  have hround : alignUp (k.heap.heap.heapSize * 3) defaultPageSize = (k.heap.heap.heapSize * 3 + 4095) / 4096 * 4096 :=
    @alignUp_two_pow _ 12 (by decide) (by omega)
  unfold growCount
  rw [hthree, hround]
  omega

/-- The table in CR3 cannot be used through its physical address. -/
theorem pageInCr3_error (hk : KernelHeap k bs) (va pa : Nat) : ∃ e, pageInCr3 va pa k = .error e := by
  unfold pageInCr3 physOf
  rw [hk.root _ (vaPml4Index_lt va)]
  split_ifs
  · exact ⟨_, rfl⟩
  · exact ⟨_, rfl⟩

/-- A list of frames is gone through only when it is empty. -/
theorem mapFrameIntoHeap_eq_ok (hk : KernelHeap k bs) {info : Nat} {b : Int} :
    mapFrameIntoHeap info fuel 0 k = .ok (b, k') ↔ 0 < fuel ∧ readWord k info = .ok 0 ∧ b = 0 ∧ k' = k := by
  cases fuel with
  | zero =>
    refine iff_of_false (fun h => ?_) (fun h => absurd h.1 (lt_irrefl 0))
    cases h
  | succ fuel =>
    unfold mapFrameIntoHeap
    rw [bind_eq_ok]
    constructor
    · rintro ⟨count, hcount, h⟩
      split_ifs at h with hpos
      · -- the first frame of the list is about to be mapped
        obtain ⟨frame, -, h⟩ := bind_eq_ok.1 h
        obtain ⟨e, he⟩ := pageInCr3_error hk
          (add64 (add64 k.heap.heap.heapStart k.heap.heap.heapSize) (mul64 0 defaultPageSize)) frame
        dsimp only at h
        rw [he] at h
        cases h
      · obtain rfl : count = 0 := by omega
        cases h
        exact ⟨by omega, hcount, rfl, rfl⟩
    · rintro ⟨-, hcount, rfl, rfl⟩
      exact ⟨0, hcount, rfl⟩

/-- The request for more memory is turned down, and comes back only where the quadword taken for the number of frames is
mapped and zero: then nothing has changed. -/
theorem growHeap_eq_ok (hk : KernelHeap k bs) :
    growHeap fuel k = .ok (r, k') ↔ 0 < fuel ∧ readWord k refusedInfo = .ok 0 ∧ r = frameAllocFailed ∧ k' = k := by
  have hrefused : iallocFrames (growCount k.heap.heap) 0 k.mem k.mmap = .ok (none, k.mem, k.mmap) :=
    if_pos (growCount_large hk)
  have hbound := hk.tiled.bound
  have hsize : add64 k.heap.heap.heapSize (mul64 0 defaultPageSize) = k.heap.heap.heapSize := by
    rw [mul64_of_lt (by omega), add64_of_lt (by omega), Nat.zero_mul, Nat.add_zero]
  unfold growHeap
  rw [hrefused]
  show (mapFrameIntoHeap refusedInfo fuel 0 k >>= _) = _ ↔ _
  rw [bind_eq_ok]
  constructor
  · rintro ⟨⟨b, k₁⟩, hmap, h⟩
    obtain ⟨hpos, hcount, rfl, rfl⟩ := (mapFrameIntoHeap_eq_ok hk).1 hmap
    obtain ⟨count, hcount', h⟩ := bind_eq_ok.1 h
    obtain rfl : 0 = count := Except.ok.inj (hcount.symm.trans hcount')
    dsimp only at h
    rw [hsize] at h
    cases h
    exact ⟨hpos, hcount, rfl, rfl⟩
  · rintro ⟨hpos, hcount, rfl, rfl⟩
    refine ⟨(0, k'), (mapFrameIntoHeap_eq_ok hk).2 ⟨hpos, hcount, rfl, rfl⟩, bind_eq_ok.2 ⟨0, hcount, ?_⟩⟩
    dsimp only
    rw [hsize]
    rfl

/-- A call of `Imalloc_alocator` comes back. -/
def Returns (size : Nat) (k : Kernel) (r : Nat) (k' : Kernel) : Prop := ∃ fuel, imallocGrow fuel size k = .ok (r, k')

/-- The kernel with a block handed out. -/
def withBlock (k : Kernel) (heap : Heap) (r size : Nat) : Kernel := { k with heap := ⟨heap, (r, size) :: k.heap.live⟩ }

/-- A call comes back with a block the scan found, or, when the scan gives up, as `growHeap` does. -/
theorem returns_iff (hk : KernelHeap k bs) : Returns size k r k' ↔
    (∃ heap, (∃ fuel, imallocAlocator fuel k.heap.heap size = .ok (some (r, heap))) ∧ k' = withBlock k heap r size) ∨
      (∃ fuel, imallocAlocator fuel k.heap.heap size = .ok none) ∧ readWord k refusedInfo = .ok 0 ∧
        r = frameAllocFailed ∧ k' = k := by
  constructor
  · rintro ⟨fuel, h⟩
    unfold imallocGrow at h
    obtain ⟨s, hs, h⟩ := bind_eq_ok.1 h
    rcases s with _ | ⟨addr, heap⟩
    · exact .inr ⟨⟨fuel, hs⟩, ((growHeap_eq_ok hk).1 h).2⟩
    · cases h
      exact .inl ⟨heap, ⟨fuel, hs⟩, rfl⟩
  · rintro (⟨heap, ⟨fuel, hs⟩, rfl⟩ | ⟨⟨fuel, hs⟩, hgrow⟩)
    · exact ⟨fuel, bind_eq_ok.2 ⟨_, hs, rfl⟩⟩
    · have hpos : 0 < fuel := by
        rcases fuel with _ | fuel
        · cases hs
        · omega
      exact ⟨fuel, bind_eq_ok.2 ⟨_, hs, (growHeap_eq_ok hk).2 ⟨hpos, hgrow⟩⟩⟩

end

end Icarus.Alloc
