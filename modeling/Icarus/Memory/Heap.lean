/-
The kernel heap of `alloc.c`: block headers in the heap's own memory, the first fit scan with its
split, and `free` with its two merges. Headers outside the mapped pages fault.
-/
import Icarus.Base.Bytes
import Icarus.Base.Loop
import Icarus.Base.Word

namespace Icarus.Memory

open Icarus.Base

/-! ## Headers -/

/-- `META_DATA_SIZE`. -/
def metaDataSize : Nat := 16

/-- `HEAP_ALIGNMENT`. -/
def heapAlignment : Nat := 16

/-- `header->block_size`, the low 63 bits of the first quadword. -/
def blockSize (m : Mem) (header : Nat) : Nat := ((m.load64 header).setWidth 63).toNat

/-- `header->allocated`, its highest bit. -/
def allocated (m : Mem) (header : Nat) : Bool := (m.load64 header).msb

/-- `header->prev_block_data`. -/
def prevBlockData (m : Mem) (header : Nat) : Nat := (m.load64 (header + 8)).toNat

/-- Both bit fields of the first quadword. -/
def storeFields (m : Mem) (header : Nat) (allocated : Bool) (size : Nat) : Mem :=
  m.store64 header (BitVec.cons allocated (BitVec.ofNat 63 size))

/-- `header->block_size = size`. -/
def setBlockSize (m : Mem) (header size : Nat) : Mem := storeFields m header (allocated m header) size

/-- `header->allocated = b`. -/
def setAllocated (m : Mem) (header : Nat) (b : Bool) : Mem := storeFields m header b (blockSize m header)

/-- `header->prev_block_data = offset`. -/
def setPrevBlockData (m : Mem) (header offset : Nat) : Mem := m.store64 (header + 8) (BitVec.ofNat 64 offset)

/-! ## The allocator -/

/-- `alloc_t`, the memory its heap lies in, and where the pages mapped for it end. -/
structure Heap where
  mem : Mem
  heapStart : Nat
  heapSize : Nat
  limit : Nat

/-- The header is about to be used: outside the mapped pages, the first of which starts with the
`alloc_t`, that is a page fault. -/
def Heap.touch (h : Heap) (header : Nat) : Except Fault Unit :=
  if h.heapStart ≤ header + metaDataSize ∧ header + metaDataSize ≤ h.limit then .ok ()
  else .error (.badAddress header)

/-- `init_custom_alloc` of a heap whose pages are mapped: the allocator at the aligned start, the
`struct page` that names the frames one page behind it, and the root header. -/
def initCustomAlloc (initialSize heapStart : Nat) (mem : Mem) : Heap :=
  let heapStart := alignDown heapStart 4096
  let pages := alignUp initialSize 4096 / 4096
  let initialSize := mul64 pages 4096
  let header := add64 heapStart metaDataSize
  let mem := setAllocated mem header false
  let mem := setBlockSize mem header (sub64 initialSize 16)
  let mem := setPrevBlockData mem header 0
  { mem, heapStart := header, heapSize := initialSize, limit := heapStart + max pages 2 * 4096 }

/-- The split in `Imalloc_alocator`: a free header behind the first `size` bytes of the block, which
are allocated. -/
def splitBlock (mem : Mem) (header size : Nat) : Mem :=
  let nextBlock := add64 header size
  let remaining := sub64 (blockSize mem header) size
  let mem := setAllocated mem nextBlock false
  let mem := setBlockSize mem nextBlock remaining
  let mem := setPrevBlockData mem nextBlock size
  let mem := setAllocated mem header true
  setBlockSize mem header size

/-- The inner loop of `Imalloc_alocator` from `header` on: the address of the payload, or nothing
when it is left to ask the kernel for more memory. -/
def imallocScan : (fuel : Nat) → (size header : Nat) → Heap → Except Fault (Option (Nat × Heap))
  | 0, _, _, _ => .error .outOfFuel
  | fuel + 1, size, header, h => do
    h.touch header
    if add64 header (blockSize h.mem header) < add64 h.heapStart h.heapSize then
      if !allocated h.mem header && blockSize h.mem header == size then
        return some (add64 header metaDataSize, { h with mem := setAllocated h.mem header true })
      else if !allocated h.mem header && decide (blockSize h.mem header > size) then
        h.touch (add64 header size)
        return some (add64 header metaDataSize, { h with mem := splitBlock h.mem header size })
      else if !allocated h.mem header then
        return none
      else
        imallocScan fuel size (add64 header (blockSize h.mem header)) h
    else
      return none

/-- The size of the block for a request. -/
def totalSize (size : Nat) : Nat := alignUp (add64 size metaDataSize) heapAlignment

/-- `Imalloc_alocator` as far as it is served without growing the heap. -/
def imallocAlocator (fuel : Nat) (h : Heap) (size : Nat) : Except Fault (Option (Nat × Heap)) :=
  imallocScan fuel (totalSize size) h.heapStart h

/-- `free`. -/
def heapFree (h : Heap) (addr : Nat) : Except Fault Heap := do
  let header := sub64 addr metaDataSize
  h.touch header
  let nextBlock := add64 header (blockSize h.mem header)
  let prevBlock := sub64 header (prevBlockData h.mem header)
  h.touch prevBlock
  let (working, mem) := if !allocated h.mem prevBlock then
      (prevBlock, setBlockSize h.mem prevBlock
        (blockSize h.mem prevBlock + add64 (blockSize h.mem header) metaDataSize))
    else (header, h.mem)
  h.touch nextBlock
  let mem := if !allocated mem nextBlock then
      setBlockSize mem working (blockSize mem working + add64 (blockSize mem nextBlock) metaDataSize)
    else mem
  return { h with mem := setAllocated mem working false }

/-! ## Fields of written headers -/

section
variable (m : Mem) (header : Nat) (b : Bool) (n : Nat)

@[simp] theorem blockSize_storeFields : blockSize (storeFields m header b n) header = n % 2 ^ 63 := by
  unfold blockSize storeFields
  rw [Mem.load64_store64_same, BitVec.setWidth_cons, BitVec.toNat_ofNat]

@[simp] theorem allocated_storeFields : allocated (storeFields m header b n) header = b := by
  unfold allocated storeFields
  rw [Mem.load64_store64_same, BitVec.msb_cons]

theorem blockSize_lt : blockSize m header < 2 ^ 63 := BitVec.isLt _

@[simp] theorem blockSize_setAllocated : blockSize (setAllocated m header b) header = blockSize m header := by
  unfold setAllocated
  rw [blockSize_storeFields, Nat.mod_eq_of_lt (blockSize_lt ..)]

@[simp] theorem allocated_setAllocated : allocated (setAllocated m header b) header = b :=
  allocated_storeFields ..

@[simp] theorem allocated_setBlockSize : allocated (setBlockSize m header n) header = allocated m header :=
  allocated_storeFields ..

theorem blockSize_setBlockSize {n : Nat} (h : n < 2 ^ 63) : blockSize (setBlockSize m header n) header = n := by
  unfold setBlockSize
  rw [blockSize_storeFields, Nat.mod_eq_of_lt h]

/-- Writing back both fields changes nothing. -/
theorem storeFields_self : storeFields m header (allocated m header) (blockSize m header) = m := by
  unfold storeFields allocated blockSize
  rw [BitVec.ofNat_toNat, BitVec.setWidth_eq, BitVec.cons_msb_setWidth]
  exact Mem.store_load_same m header 8

theorem setPrevBlockData_self : setPrevBlockData m header (prevBlockData m header) = m := by
  unfold setPrevBlockData prevBlockData
  rw [BitVec.ofNat_toNat, BitVec.setWidth_eq]
  exact Mem.store_load_same m (header + 8) 8

end

/-- The first quadword of a header is the same in both memories. -/
def SameFields (m m' : Mem) (header : Nat) : Prop := m'.load64 header = m.load64 header

section
variable {m m' m'' : Mem} {header other : Nat}

theorem SameFields.blockSize (h : SameFields m m' header) : blockSize m' header = blockSize m header := by
  unfold Memory.blockSize
  rw [h]

theorem SameFields.allocated (h : SameFields m m' header) : allocated m' header = allocated m header := by
  unfold Memory.allocated
  rw [h]

theorem SameFields.refl : SameFields m m header := rfl

theorem SameFields.setAllocated (hs : SameFields m m' header) (b : Bool) (h : header + 8 ≤ other ∨ other + 8 ≤ header) :
    SameFields m (setAllocated m' other b) header :=
  (Mem.load64_store64_disjoint m' h).trans hs

theorem SameFields.setBlockSize (hs : SameFields m m' header) (n : Nat) (h : header + 8 ≤ other ∨ other + 8 ≤ header) :
    SameFields m (setBlockSize m' other n) header :=
  (Mem.load64_store64_disjoint m' h).trans hs

theorem SameFields.setPrevBlockData (hs : SameFields m m' header) (n : Nat)
    (h : header + 8 ≤ other + 8 ∨ other + 16 ≤ header) : SameFields m (setPrevBlockData m' other n) header :=
  (Mem.load64_store64_disjoint m' h).trans hs

end

/-! ## The split -/

section
variable {m : Mem} {header size : Nat}

theorem splitBlock_self (hfit : size < blockSize m header) : blockSize (splitBlock m header size) header = size ∧
    allocated (splitBlock m header size) header = true := by
  have hlt := blockSize_lt m header
  unfold splitBlock
  exact ⟨blockSize_setBlockSize _ _ (by omega), by rw [allocated_setBlockSize, allocated_setAllocated]⟩

theorem splitBlock_next (hs : 16 ≤ size) (hfit : size < blockSize m header)
    (hend : header + blockSize m header < 2 ^ 64) :
    blockSize (splitBlock m header size) (header + size) = blockSize m header - size ∧
      allocated (splitBlock m header size) (header + size) = false := by
  have hlt := blockSize_lt m header
  dsimp only [splitBlock]
  rw [add64_of_lt (by omega), sub64_of_le (by omega) (by omega)]
  -- the last three writes are outside the first quadword of the new header
  have hlast : ∀ m' : Mem, SameFields m' (setBlockSize (setAllocated
      (setPrevBlockData m' (header + size) size) header true) header size) (header + size) := fun m' =>
    .setBlockSize (.setAllocated (.setPrevBlockData .refl _ (by omega)) _ (by omega)) _ (by omega)
  constructor
  · rw [(hlast _).blockSize, blockSize_setBlockSize _ _ (by omega)]
  · rw [(hlast _).allocated, allocated_setBlockSize, allocated_setAllocated]

end

end Icarus.Memory
