/-
What `Imalloc_alocator` does when no free block is large enough. It gives up in order only where the scan is stopped by a
free block before it leaves the heap, and where the quadword at the refused list, in the lower half of the address space,
happens to be mapped and zero.
-/
import Icarus.Alloc.Growth

namespace Icarus.Alloc

open Icarus.Base Icarus.Memory Icarus.Processes Relation

/-- No free block holds the request with its header, rounded up. -/
def NoRoom (h : Heap) (bs : List Nat) (size : Nat) : Prop :=
  ∀ b ∈ bs, allocated h.mem b = false → blockSize h.mem b < (size + 31) / 16 * 16

/-- The scan comes to its end when only the headers of the tiled range can be read. -/
def ReadsInside (h : Heap) (size : Nat) : Prop :=
  ∃ fuel r, imallocAlocator fuel { h with limit := h.stop } size = .ok r

/-- A failure value, with the heap and the frame map as they were. -/
structure Refused (k k' : Kernel) (bs : List Nat) (r : Nat) : Prop where
  value : r = 0 ∨ r = frameAllocFailed
  unchanged : k'.heap.heap.heapSize = k.heap.heap.heapSize
  headers : ∀ b ∈ bs, SameFields k.heap.heap.mem k'.heap.heap.mem b ∧
    prevBlockData k'.heap.heap.mem b = prevBlockData k.heap.heap.mem b
  frames : k'.mmap = k.mmap

/-- The heap has grown by `n` pages with new frames, and the block lies in them. -/
structure Extended (k k' : Kernel) (size r n : Nat) : Prop where
  pos : 0 < n
  grown : k'.heap.heap.heapSize = k.heap.heap.heapSize + n * defaultPageSize
  mapped : ∀ i < n, ∃ f, Memory.translate k'.mem k'.sched.cr3 (k.heap.heap.stop + i * defaultPageSize) = some f ∧
    f ∈ k.mmap.free ∧ f ∉ k'.mmap.free
  block : ∃ bs', HeapTiled k'.heap.heap bs' ∧ sub64 r metaDataSize ∈ bs' ∧ k.heap.heap.stop ≤ sub64 r metaDataSize ∧
    size + metaDataSize ≤ blockSize k'.heap.heap.mem (sub64 r metaDataSize)

/-- The call reads no header outside the heap, and refuses the request or grows the heap for it. -/
def ExhaustionHandled (k : Kernel) (bs : List Nat) (size : Nat) : Prop :=
  ReadsInside k.heap.heap size ∧ ∃ r k', Returns size k r k' ∧ (Refused k k' bs r ∨ ∃ n, Extended k k' size r n)

/-- A size that wraps around when the header is added or when it is rounded leaves 16 bytes at most. -/
theorem totalSize_wrap {size : Nat} (h : size < 2 ^ 64) (hwrap : 2 ^ 64 ≤ size + 31) : totalSize size ≤ 16 := by
  have hdown : totalSize size = add64 (add64 size 16) 15 / 16 * 16 :=
    @alignDown_two_pow _ 4 (u64_lt _) (by decide)
  have hsum : add64 (add64 size 16) 15 < 31 := by
    unfold add64 u64
    omega
  omega

theorem totalSize_eq {size : Nat} (h : size + 31 < 2 ^ 64) : totalSize size = (size + 31) / 16 * 16 := by
  unfold totalSize metaDataSize heapAlignment
  rw [add64_of_lt (by omega)]
  exact @alignUp_two_pow (size + 16) 4 (by decide) (by omega)

section
variable {k : Kernel} {h : Heap} {bs : List Nat} {size b : Nat}

/-- With some free block the scan stays inside. -/
theorem HeapTiled.inside (ht : HeapTiled h bs) : HeapTiled { h with limit := h.stop } bs :=
  ⟨ht.tiled, ht.sizes, ht.start, le_rfl, ht.bound⟩

/-- The scan of a heap that is all in use looks at the header behind it. -/
theorem not_readsInside (ht : HeapTiled h bs) (hfull : h.firstFree bs = none) : ¬ReadsInside h size := by
  rintro ⟨fuel, r, hok⟩
  obtain ⟨a, hr, hs⟩ := ((HeapTiled.inside ht).scan_full hfull).1 ⟨fuel, hok⟩
  -- its first step is already outside
  have hout : ¬Heap.Readable { h with limit := h.stop } h.stop := by
    rintro ⟨-, hread⟩
    unfold metaDataSize at hread
    dsimp only at hread
    omega
  rcases hr.cases_head with rfl | ⟨c, ho, -⟩
  · cases hs with
    | fits hf => exact hout hf.readable
    | misses hm => exact hout hm.readable
  · exact hout ho.readable

theorem readsInside_of_misses (ht : HeapTiled h bs) (hff : h.firstFree bs = some b)
    (hlt : blockSize h.mem b < totalSize size) : ReadsInside h size := by
  obtain ⟨fuel, hok⟩ := ((HeapTiled.inside ht).refused_iff hff).2 hlt
  exact ⟨fuel, none, hok⟩

/-- A block of the old heap is neither a refusal nor new memory. -/
theorem not_handled_of_block {k' : Kernel} {heap : Heap} (hk : KernelHeap k bs) (hb : b ∈ bs)
    (hk' : k' = withBlock k heap (b + metaDataSize) size) (hheap : heap.heapSize = k.heap.heap.heapSize) :
    ¬(Refused k k' bs (b + metaDataSize) ∨ ∃ n, Extended k k' size (b + metaDataSize) n) := by
  have halign := hk.tiled.aligned hb
  unfold metaDataSize at hk' ⊢
  rintro (hr | ⟨n, hg⟩)
  · have hvalue := hr.value
    unfold frameAllocFailed at hvalue
    omega
  · have hsize := hg.grown
    have hpos := hg.pos
    rw [hk'] at hsize
    have hsame : (withBlock k heap (b + 16) size).heap.heap.heapSize = k.heap.heap.heapSize := hheap
    rw [hsame] at hsize
    unfold defaultPageSize at hsize
    omega

/-- An exhausted heap is handled in order just when the request does not wrap, some block is free, so that the scan stops
at it, and the quadword where the refused list would start is mapped and zero. -/
theorem exhaustion_handled_iff (hk : KernelHeap k bs) (hsize : size < 2 ^ 64) (hroom : NoRoom k.heap.heap bs size) :
    ExhaustionHandled k bs size ↔ size + 31 < 2 ^ 64 ∧ (∃ b ∈ bs, allocated k.heap.heap.mem b = false) ∧
      readWord k refusedInfo = .ok 0 := by
  have ht := hk.tiled
  cases hff : k.heap.heap.firstFree bs with
  | none =>
    have hused := firstFree_eq_none.1 hff
    refine iff_of_false (fun h => not_readsInside ht hff h.1) ?_
    rintro ⟨-, ⟨b, hb, hfree⟩, -⟩
    rw [hused b hb] at hfree
    cases hfree
  | some b =>
    obtain ⟨hb, hfree⟩ := mem_of_firstFree hff
    have hge := ht.size_ge hb
    by_cases hwrap : size + 31 < 2 ^ 64
    · have hlt : blockSize k.heap.heap.mem b < totalSize size := by
        rw [totalSize_eq hwrap]
        exact hroom b hb hfree
      constructor
      · rintro ⟨-, r, k', hret, -⟩
        refine ⟨hwrap, ⟨b, hb, hfree⟩, ?_⟩
        rcases (returns_iff hk).1 hret with ⟨heap, hscan, -⟩ | ⟨-, hword, -⟩
        · exact absurd ((ht.served_iff hff).1 hscan).1 (by omega)
        · exact hword
      · rintro ⟨-, -, hword⟩
        refine ⟨readsInside_of_misses ht hff hlt, frameAllocFailed, k, ?_, .inl ⟨.inr rfl, rfl, fun _ _ => ⟨rfl, rfl⟩, rfl⟩⟩
        exact (returns_iff hk).2 (.inr ⟨(ht.refused_iff hff).2 hlt, hword, rfl, rfl⟩)
    · -- a request that wraps is served from the first free block
      have hle := totalSize_wrap hsize (by omega)
      refine iff_of_false ?_ (fun h => hwrap h.1)
      rintro ⟨-, r, k', hret, hout⟩
      rcases (returns_iff hk).1 hret with ⟨heap, hscan, hk'⟩ | ⟨hscan, -⟩
      · obtain ⟨-, rfl, rfl⟩ := (ht.served_iff hff).1 hscan
        exact not_handled_of_block hk hb hk' rfl hout
      · have hsmall := (ht.refused_iff hff).1 hscan
        omega

end

/-! ## A heap that is all in use -/

/-- The new kernel with the heap of two pages in one block. -/
def usedKernel : Kernel :=
  { newKernel with heap := ⟨laidHeap 0xFFFFFF0000000000 2 0xFFFFFF0000002000 0 [(true, 8176)], []⟩ }

/-- The same with a free block of 16 bytes behind it. -/
def tailKernel : Kernel :=
  { newKernel with
    heap := ⟨laidHeap 0xFFFFFF0000000000 2 0xFFFFFF0000002000 0 [(true, 8160), (false, 16)], []⟩ }

/-- Tables of zeroes map nothing. -/
theorem translateByte_zero (cr3 va : Nat) : translateByte (fun _ => 0) cr3 va = none := by
  unfold translateByte Memory.translate
  rw [mmuWalk_zeroed fun _ _ => entryAt_zero ..]
  rfl

/-- The new kernel with another heap, which starts with the heap's window. -/
theorem newKernel_heap {heap : Heap} {bs : List Nat} (ht : HeapTiled heap bs)
    (hstart : heap.heapStart = 0xFFFFFF0000000010) (hlimit : heap.limit = 0xFFFFFF0000002000) :
    KernelHeap { newKernel with heap := ⟨heap, []⟩ } bs where
  tiled := ht
  front := by
    show metaDataSize ≤ heap.heapStart
    rw [hstart]
    decide
  below := by
    show heap.limit ≤ kernelVma
    rw [hlimit]
    decide
  half := by
    show heap.stop ≤ 2 ^ 47 ∨ 2 ^ 64 - 2 ^ 47 ≤ heap.heapStart
    rw [hstart]
    exact .inr (by decide)
  root := fun _ _ => translateByte_zero ..

theorem usedKernel_heap : KernelHeap usedKernel [0xFFFFFF0000000010] :=
  newKernel_heap (laidHeap_tiled ⟨by decide, rfl, by decide, by decide, by decide, by decide⟩) rfl rfl

theorem tailKernel_heap : KernelHeap tailKernel [0xFFFFFF0000000010, 0xFFFFFF0000001FF0] :=
  newKernel_heap (laidHeap_tiled ⟨by decide, rfl, by decide, by decide, by decide, by decide⟩) rfl rfl

theorem exhaustion_handled_iff_tailKernel :
    ExhaustionHandled tailKernel [0xFFFFFF0000000010, 0xFFFFFF0000001FF0] 16 ↔ 16 + 31 < 2 ^ 64 ∧
      (∃ b ∈ [0xFFFFFF0000000010, 0xFFFFFF0000001FF0], allocated tailKernel.heap.heap.mem b = false) ∧
        readWord tailKernel refusedInfo = .ok 0 :=
  exhaustion_handled_iff tailKernel_heap (by decide) (by unfold NoRoom; decide +kernel)

/-- Neither a heap that is all in use nor one with too small a free block is handled: the one scan leaves the heap, the
other call goes on to read the refused list. -/
theorem exhaustion_not_handled :
    (NoRoom usedKernel.heap.heap [0xFFFFFF0000000010] 16 ∧ ¬ExhaustionHandled usedKernel [0xFFFFFF0000000010] 16) ∧
      NoRoom tailKernel.heap.heap [0xFFFFFF0000000010, 0xFFFFFF0000001FF0] 16 ∧
        ¬ExhaustionHandled tailKernel [0xFFFFFF0000000010, 0xFFFFFF0000001FF0] 16 := by
  refine ⟨⟨by unfold NoRoom; decide +kernel, ?_⟩, by unfold NoRoom; decide +kernel, ?_⟩
  · rintro ⟨hinside, -⟩
    exact not_readsInside usedKernel_heap.tiled (by decide +kernel) hinside
  · rintro ⟨-, r, k', hret, -⟩
    have hff : tailKernel.heap.heap.firstFree [0xFFFFFF0000000010, 0xFFFFFF0000001FF0] = some 0xFFFFFF0000001FF0 := by
      decide +kernel
    rcases (returns_iff tailKernel_heap).1 hret with ⟨heap, hscan, -⟩ | ⟨-, hword, -⟩
    · obtain ⟨hle, -⟩ := (tailKernel_heap.tiled.served_iff hff).1 hscan
      exact absurd hle (by decide +kernel)
    · have hunmapped : physOf tailKernel.mem tailKernel.sched.cr3 refusedInfo = .error (.badAddress refusedInfo) := by
        have hnone : translateByte tailKernel.mem tailKernel.sched.cr3 refusedInfo = none := translateByte_zero ..
        unfold physOf
        rw [hnone, if_pos (by decide)]
      unfold readWord loadVirt at hword
      rw [hunmapped] at hword
      cases hword

end Icarus.Alloc
