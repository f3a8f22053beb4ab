/-
`Irealloc` (alloc.c) and the copy it makes (mem_utils.c). The copy runs from the new block into the old one, over as many
bytes as were asked for.
-/
import Icarus.Alloc.Capacity

namespace Icarus.Alloc

open Icarus.Base Icarus.Memory Icarus.Processes Relation

/-! ## The code -/

/-- Reads one byte: from the pages of the heap, or from elsewhere. -/
def loadByte (k : Kernel) (va : Nat) : Except Fault (BitVec 8) :=
  let h := k.heap.heap
  if h.heapStart ≤ va + metaDataSize ∧ va < h.limit then .ok (h.mem va)
  else do
    let pa ← physOf k.mem k.sched.cr3 va
    return k.mem pa

/-- `Imemcpy`, from the first byte on. -/
def imemcpy : (length dest src : Nat) → Kernel → Except Fault Kernel
  | 0, _, _, k => .ok k
  | length + 1, dest, src, k => do
    let v ← loadByte k src
    let k ← storeByte k dest v
    imemcpy length (add64 dest 1) (add64 src 1) k

/-- `Irealloc`. -/
def irealloc (fuel ptr newSize : Nat) (k : Kernel) : Except Fault (Nat × Kernel) := do
  let (ptr2, k) ← imallocGrow fuel newSize k
  let k ← imemcpy newSize ptr ptr2 k
  let heap ← heapFree k.heap.heap ptr
  return (ptr2, { k with heap := ⟨heap, k.heap.live.filter (·.1 ≠ ptr)⟩ })

/-! ## The copy -/

section
variable {m : Mem} {d s n : Nat}

/-- One byte after the other, a copy is made in one go when its source is not overwritten before it is read. -/
theorem copy_succ (h : d ≤ s ∨ s + (n + 1) ≤ d) :
    let m' : Mem := Function.update m d (m s)
    m'.copy (d + 1) m' (s + 1) n = m.copy d m s (n + 1) := by
  funext x
  unfold Mem.copy
  by_cases hx : x = d
  · subst hx
    rw [if_neg (by omega), if_pos (by omega), Function.update_self, Nat.sub_self, Nat.add_zero]
  · by_cases hin : d + 1 ≤ x ∧ x < d + 1 + n
    · rw [if_pos hin, if_pos (by omega), Function.update_of_ne (by omega), show s + 1 + (x - (d + 1)) = s + (x - d) by omega]
    · rw [if_neg hin, if_neg (by omega), Function.update_of_ne hx]

end

/-- The kernel with other contents of the heap. -/
def withHeapMem (k : Kernel) (m : Mem) : Kernel :=
  { k with heap := { k.heap with heap := { k.heap.heap with mem := m } } }

section
variable {k k' : Kernel} {dest src n : Nat}

theorem storeByte_inside {v : BitVec 8} (h1 : k.heap.heap.heapStart ≤ dest + metaDataSize)
    (h2 : dest < k.heap.heap.limit) :
    storeByte k dest v = .ok (withHeapMem k (Function.update k.heap.heap.mem dest v)) := if_pos ⟨h1, h2⟩

theorem loadByte_inside (h1 : k.heap.heap.heapStart ≤ src + metaDataSize) (h2 : src < k.heap.heap.limit) :
    loadByte k src = .ok (k.heap.heap.mem src) := if_pos ⟨h1, h2⟩

/-- Within the pages of the heap the copy comes to its end. -/
theorem imemcpy_inside (hd : k.heap.heap.heapStart ≤ dest + metaDataSize) (hs : k.heap.heap.heapStart ≤ src + metaDataSize)
    (hd' : dest + n ≤ k.heap.heap.limit) (hs' : src + n ≤ k.heap.heap.limit) (hlimit : k.heap.heap.limit < 2 ^ 64)
    (h : dest ≤ src ∨ src + n ≤ dest) :
    imemcpy n dest src k = .ok (withHeapMem k (k.heap.heap.mem.copy dest k.heap.heap.mem src n)) := by
  induction n generalizing dest src k with
  | zero =>
    have hcopy : k.heap.heap.mem.copy dest k.heap.heap.mem src 0 = k.heap.heap.mem := by
      funext x
      exact if_neg (by omega)
    rw [hcopy]
    rfl
  | succ n ih =>
    unfold imemcpy
    rw [loadByte_inside hs (by omega)]
    show (storeByte k dest _ >>= _) = _
    rw [storeByte_inside hd (by omega)]
    show imemcpy n (add64 dest 1) (add64 src 1) _ = _
    have hrest := @ih (withHeapMem k (Function.update k.heap.heap.mem dest (k.heap.heap.mem src))) (dest + 1) (src + 1)
      (show k.heap.heap.heapStart ≤ _ by omega) (show k.heap.heap.heapStart ≤ _ by omega)
      (show _ ≤ k.heap.heap.limit by omega) (show _ ≤ k.heap.heap.limit by omega) hlimit (by omega)
    rw [add64_of_lt (by omega), add64_of_lt (by omega), hrest]
    exact congrArg (fun m => Except.ok (withHeapMem k m)) (copy_succ h)

/-- A copy that comes to its end has not left the pages of the heap, which end where nothing is mapped. -/
theorem le_limit_of_imemcpy {e : Fault} (hend : physOf k.mem k.sched.cr3 k.heap.heap.limit = .error e)
    (hd : k.heap.heap.heapStart ≤ dest + metaDataSize) (hd' : dest ≤ k.heap.heap.limit)
    (hlimit : k.heap.heap.limit < 2 ^ 64) (h : imemcpy n dest src k = .ok k') : dest + n ≤ k.heap.heap.limit := by
  induction n generalizing dest src k with
  | zero => exact hd'
  | succ n ih =>
    obtain ⟨v, -, h⟩ := bind_eq_ok.1 h
    obtain ⟨k₁, hstore, h⟩ := bind_eq_ok.1 h
    rcases hd'.eq_or_lt with rfl | hlt
    · unfold storeByte at hstore
      rw [if_neg (by omega), hend] at hstore
      cases hstore
    · rw [storeByte_inside hd hlt] at hstore
      cases hstore
      rw [add64_of_lt (by omega)] at h
      have hle := @ih (withHeapMem k (Function.update k.heap.heap.mem dest v)) (dest + 1) (add64 src 1) hend
        (show k.heap.heap.heapStart ≤ _ by omega) (show _ ≤ k.heap.heap.limit by omega) hlimit h
      have hsame : (withHeapMem k (Function.update k.heap.heap.mem dest v)).heap.heap.limit = k.heap.heap.limit := rfl
      omega

end

/-! ## `free` -/

section
variable {h h' : Heap} {p : Nat}

/-- A `free` that comes back has read the header behind the block, and has written one header: that of the block, or of
the free one in front of it. -/
theorem heapFree_eq_ok (hok : heapFree h p = .ok h') :
    let header := sub64 p metaDataSize
    let prev := sub64 header (prevBlockData h.mem header)
    h.Readable (add64 header (blockSize h.mem header)) ∧ ∃ w, (w = header ∨ w = prev ∧ allocated h.mem prev = false) ∧
      ∀ x, x < w ∨ w + 8 ≤ x → h'.mem x = h.mem x := by
  obtain ⟨_, -, hok⟩ := bind_eq_ok.1 hok
  obtain ⟨_, -, hok⟩ := bind_eq_ok.1 hok
  dsimp only at hok ⊢
  generalize hp : sub64 p metaDataSize = header at hok ⊢
  generalize hprev : sub64 header (prevBlockData h.mem header) = prev at hok ⊢
  generalize hnext : add64 header (blockSize h.mem header) = next at hok ⊢
  cases hfree : allocated h.mem prev with
  | true =>
    simp only [hfree, Bool.not_true, Bool.false_eq_true, if_false] at hok
    obtain ⟨_, htouch, hok⟩ := bind_eq_ok.1 hok
    cases hok
    refine ⟨touch_eq_ok.1 htouch, header, .inl rfl, fun x hx => ?_⟩
    dsimp only
    split_ifs
    · exact (storeFields_of_lt hx).trans (storeFields_of_lt hx)
    · exact storeFields_of_lt hx
  | false =>
    simp only [hfree, Bool.not_false, if_true] at hok
    obtain ⟨_, htouch, hok⟩ := bind_eq_ok.1 hok
    cases hok
    refine ⟨touch_eq_ok.1 htouch, prev, .inr ⟨rfl, rfl⟩, fun x hx => ?_⟩
    dsimp only
    split_ifs
    · exact (storeFields_of_lt hx).trans ((storeFields_of_lt hx).trans (storeFields_of_lt hx))
    · exact (storeFields_of_lt hx).trans (storeFields_of_lt hx)

/-- With the three headers in mapped memory it comes back. -/
theorem exists_heapFree (h1 : h.Readable (sub64 p metaDataSize))
    (h2 : h.Readable (sub64 (sub64 p metaDataSize) (prevBlockData h.mem (sub64 p metaDataSize))))
    (h3 : h.Readable (add64 (sub64 p metaDataSize) (blockSize h.mem (sub64 p metaDataSize)))) :
    ∃ h', heapFree h p = .ok h' := by
  unfold heapFree
  dsimp only [bind, Except.bind]
  rw [touch_of_readable h1]
  dsimp only
  rw [touch_of_readable h2]
  dsimp only
  cases allocated h.mem (sub64 (sub64 p metaDataSize) (prevBlockData h.mem (sub64 p metaDataSize))) with
  | true =>
    simp only [Bool.not_true, Bool.false_eq_true, if_false, touch_of_readable h3]
    exact ⟨_, rfl⟩
  | false =>
    simp only [Bool.not_false, if_true, touch_of_readable h3]
    exact ⟨_, rfl⟩

end

/-! ## The whole call -/

/-- A kernel heap with links back, whose pages end with its blocks and with what is mapped there. -/
structure ReallocHeap (k : Kernel) (bs : List Nat) : Prop extends KernelHeap k bs where
  links : BackLinked (blockSize k.heap.heap.mem) (prevBlockData k.heap.heap.mem) 0 bs
  last : k.heap.heap.limit < k.heap.heap.stop + metaDataSize
  ends : ∃ e, physOf k.mem k.sched.cr3 k.heap.heap.limit = .error e

/-- The payload of a block in use starts at `p`. -/
structure LiveAt (h : Heap) (bs : List Nat) (p : Nat) : Prop where
  header : metaDataSize ≤ p
  mem : p - metaDataSize ∈ bs
  used : allocated h.mem (p - metaDataSize) = true

/-- The bytes of its payload. -/
def capacity (h : Heap) (p : Nat) : Nat := blockSize h.mem (p - metaDataSize) - metaDataSize

/-- The byte belongs to a block in use other than the one whose payload starts at `p`. -/
def InOther (h : Heap) (bs : List Nat) (p x : Nat) : Prop :=
  ∃ d ∈ bs, allocated h.mem d = true ∧ d ≠ p - metaDataSize ∧ d ≤ x ∧ x < d + blockSize h.mem d

/-- A call of `Irealloc` comes back. -/
def ReallocReturns (p n : Nat) (k : Kernel) (r : Nat) (k' : Kernel) : Prop := ∃ fuel, irealloc fuel p n k = .ok (r, k')

/-- The call comes back with the contents of the block, and the other blocks in use are as they were. -/
def ReallocKeeps (k : Kernel) (bs : List Nat) (p n : Nat) : Prop :=
  ∃ r k', ReallocReturns p n k r k' ∧
    (∀ i < min (capacity k.heap.heap p) n, k'.heap.heap.mem (r + i) = k.heap.heap.mem (p + i)) ∧
      ∀ x, InOther k.heap.heap bs p x → k'.heap.heap.mem x = k.heap.heap.mem x

/-- The heap after the copy from the block at `b` that was taken. -/
def copied (h : Heap) (b p n : Nat) : Mem :=
  (h.take (totalSize n) b).mem.copy p (h.take (totalSize n) b).mem (b + metaDataSize) n

section
variable {h : Heap} {bs : List Nat} {b p : Nat}

theorem LiveAt.sub_header (hp : LiveAt h bs p) (ht : HeapTiled h bs) : sub64 p metaDataSize = p - metaDataSize := by
  have heq := ht.header hp.mem
  rwa [Nat.sub_add_cancel hp.header] at heq

/-- The block ends behind its payload. -/
theorem LiveAt.end_eq (hp : LiveAt h bs p) (ht : HeapTiled h bs) :
    p - metaDataSize + blockSize h.mem (p - metaDataSize) = p + capacity h p := by
  have hge := ht.size_ge hp.mem
  have hheader := hp.header
  unfold capacity metaDataSize at *
  omega

theorem LiveAt.ne_free (hp : LiveAt h bs p) (hfree : allocated h.mem b = false) : p - metaDataSize ≠ b := by
  rintro rfl
  rw [hp.used] at hfree
  cases hfree

end

section
variable {k k' : Kernel} {bs : List Nat} {b p n r x : Nat}

/-- The scan of such a heap ends at a free block. -/
theorem ReallocHeap.served (hk : ReallocHeap k bs) {fuel q : Nat} {heap : Heap}
    (hok : imallocAlocator fuel k.heap.heap n = .ok (some (q, heap))) :
    ∃ b, k.heap.heap.firstFree bs = some b ∧ totalSize n ≤ blockSize k.heap.heap.mem b := by
  have hpast := hk.last
  cases hff : k.heap.heap.firstFree bs with
  | none =>
    obtain ⟨a, hr, hf, -⟩ := (hk.tiled.served_behind_iff hff).1 ⟨fuel, hok⟩
    -- no header behind the blocks can be read
    have hread : ¬k.heap.heap.Readable k.heap.heap.stop := fun h => absurd h.2 (by omega)
    rcases hr.cases_head with heq | ⟨c, ho, -⟩
    · exact absurd (heq ▸ hf.readable) hread
    · exact absurd ho.readable hread
  | some b => exact ⟨b, rfl, ((hk.tiled.served_iff hff).1 ⟨fuel, hok⟩).1⟩

/-- A request whose size wraps around is longer than what is left of the heap's pages. -/
theorem ReallocHeap.fits_of_le (hk : ReallocHeap k bs) (h : p + n ≤ k.heap.heap.limit) : n + 31 < 2 ^ 64 := by
  have hbelow := hk.below
  unfold kernelVma at hbelow
  omega

/-- The kernel when the copy starts. -/
def taken (k : Kernel) (b n : Nat) : Kernel := withBlock k (k.heap.heap.take (totalSize n) b) (b + metaDataSize) n

/-- Within the pages of the heap the copy from the block just taken comes to its end: the two blocks are different ones,
and the new one is long enough. -/
theorem imemcpy_taken (hk : ReallocHeap k bs) (hp : LiveAt k.heap.heap bs p) (hff : k.heap.heap.firstFree bs = some b)
    (hle : totalSize n ≤ blockSize k.heap.heap.mem b) (hroom : p + n ≤ k.heap.heap.limit) :
    imemcpy n p (b + metaDataSize) (taken k b n) = .ok (withHeapMem (taken k b n) (copied k.heap.heap b p n)) := by
  have ht := hk.tiled
  obtain ⟨hb, hfree⟩ := mem_of_firstFree hff
  obtain ⟨hend, hstop, hread, -⟩ := ht.visit hb
  obtain ⟨-, hfit⟩ := totalSize_spec (hk.fits_of_le hroom)
  have hbound := ht.bound
  have hmapped := ht.mapped
  have hbelow := hk.below
  have hheader := hp.header
  have hstart := hread.1
  have hpstart := (ht.visit hp.mem).2.2.1.1
  have hpge := ht.size_ge hp.mem
  unfold kernelVma at hbelow
  unfold metaDataSize at hheader hstart hpstart hpge
  refine imemcpy_inside ?_ ?_ ?_ ?_ ?_ ?_
  · show k.heap.heap.heapStart ≤ p + 16
    omega
  · show k.heap.heap.heapStart ≤ b + 16 + 16
    omega
  · exact hroom
  · show b + 16 + n ≤ k.heap.heap.limit
    omega
  · show k.heap.heap.limit < 2 ^ 64
    omega
  · show p ≤ b + 16 ∨ b + 16 + n ≤ p
    rcases ht.tiled.apart hb hp.mem (hp.ne_free hfree).symm with h | h
    · right
      unfold metaDataSize at h
      omega
    · left
      unfold metaDataSize at h
      omega

/-- A copy that comes to its end has not gone past them. -/
theorem room_of_imemcpy {src : Nat} (hk : ReallocHeap k bs) (hp : LiveAt k.heap.heap bs p)
    (h : imemcpy n p src (taken k b n) = .ok k') : p + n ≤ k.heap.heap.limit := by
  have ht := hk.tiled
  obtain ⟨hend, -, hread, -⟩ := ht.visit hp.mem
  have hge := ht.size_ge hp.mem
  have hmapped := ht.mapped
  have hbelow := hk.below
  have hheader := hp.header
  have hstart := hread.1
  obtain ⟨e, hends⟩ := hk.ends
  unfold kernelVma at hbelow
  unfold metaDataSize at hheader hstart hend hge
  refine @le_limit_of_imemcpy (taken k b n) k' p src n e hends ?_ ?_ ?_ h
  · show k.heap.heap.heapStart ≤ p + 16
    omega
  · show p ≤ k.heap.heap.limit
    omega
  · show k.heap.heap.limit < 2 ^ 64
    omega

/-- A call comes back just when the copy stays in the pages of the heap and the `free` behind it comes back. -/
theorem reallocReturns_iff (hk : ReallocHeap k bs) (hp : LiveAt k.heap.heap bs p)
    (hff : k.heap.heap.firstFree bs = some b) (hle : totalSize n ≤ blockSize k.heap.heap.mem b) :
    ReallocReturns p n k r k' ↔ p + n ≤ k.heap.heap.limit ∧ r = b + metaDataSize ∧
      ∃ heap, heapFree { k.heap.heap.take (totalSize n) b with mem := copied k.heap.heap b p n } p = .ok heap ∧
        k' = { k with heap := ⟨heap, ((r, n) :: k.heap.live).filter (·.1 ≠ p)⟩ } := by
  constructor
  · rintro ⟨fuel, h⟩
    obtain ⟨⟨r', k₁⟩, hgrow, h⟩ := bind_eq_ok.1 h
    obtain ⟨rfl, rfl⟩ := (returns_of_servedInside hk.toKernelHeap hff hle).1 ⟨fuel, hgrow⟩
    obtain ⟨k₂, hmemcpy, h⟩ := bind_eq_ok.1 h
    have hroom := room_of_imemcpy hk hp hmemcpy
    obtain rfl := Except.ok.inj ((imemcpy_taken hk hp hff hle hroom).symm.trans hmemcpy)
    obtain ⟨heap, hheap, h⟩ := bind_eq_ok.1 h
    cases h
    exact ⟨hroom, rfl, heap, hheap, rfl⟩
  · rintro ⟨hroom, rfl, heap, hheap, rfl⟩
    obtain ⟨fuel, hgrow⟩ := (returns_of_servedInside hk.toKernelHeap hff hle).2 ⟨rfl, rfl⟩
    exact ⟨fuel, bind_eq_ok.2 ⟨_, hgrow, bind_eq_ok.2 ⟨_, imemcpy_taken hk hp hff hle hroom,
      bind_eq_ok.2 ⟨heap, hheap, rfl⟩⟩⟩⟩

end

/-! ## The copy, and the `free` behind it -/

section
variable {k k' : Kernel} {bs : List Nat} {b p n r x : Nat} (hk : ReallocHeap k bs) (hp : LiveAt k.heap.heap bs p)
  (hff : k.heap.heap.firstFree bs = some b) (hle : totalSize n ≤ blockSize k.heap.heap.mem b) (hwrap : n + 31 < 2 ^ 64)

include hk hff hle hwrap

/-- What the block handed out holds is what it held before. -/
theorem copied_eq :
    (p ≤ x → x < p + n → copied k.heap.heap b p n x = k.heap.heap.mem (b + metaDataSize + (x - p))) ∧
      ((x < p ∨ p + n ≤ x) → copied k.heap.heap b p n x = (k.heap.heap.take (totalSize n) b).mem x) := by
  have ht := hk.tiled
  obtain ⟨hb, -⟩ := mem_of_firstFree hff
  obtain ⟨hend, hstop, -, -⟩ := ht.visit hb
  have hbound := ht.bound
  obtain ⟨-, hfit⟩ := totalSize_spec hwrap
  unfold copied Mem.copy metaDataSize
  constructor
  · intro h1 h2
    rw [if_pos ⟨h1, h2⟩]
    refine take_of_lt (by omega) fun _ => .inl ?_
    rw [add64_of_lt (by omega)]
    omega
  · intro h
    exact if_neg (by omega)

include hp

/-- The header of the block is as it was before the call, and the block in front of it is still one of the heap. -/
theorem copied_header :
    blockSize (copied k.heap.heap b p n) (p - metaDataSize) = capacity k.heap.heap p + metaDataSize ∧
      sub64 (p - metaDataSize) (prevBlockData (copied k.heap.heap b p n) (p - metaDataSize)) ∈ bs ∧
        sub64 (p - metaDataSize) (prevBlockData (copied k.heap.heap b p n) (p - metaDataSize)) ≤ p - metaDataSize := by
  have ht := hk.tiled
  have hl : HeapLinked k.heap.heap bs := ⟨ht, hk.links⟩
  obtain ⟨hb, hfree⟩ := mem_of_firstFree hff
  obtain ⟨hal, -⟩ := totalSize_spec hwrap
  have hge := ht.size_ge hp.mem
  have hheader := hp.header
  obtain ⟨hfields, hlink⟩ := ht.blocks.take_other hb hal hle (.inl hp.mem) (hp.ne_free hfree)
  have hsame : ∀ x, x < p → copied k.heap.heap b p n x = (k.heap.heap.take (totalSize n) b).mem x :=
    fun x hx => (copied_eq hk hff hle hwrap).2 (.inl hx)
  unfold metaDataSize at hheader hfields hlink hge ⊢
  have hsize : SameFields (k.heap.heap.take (totalSize n) b).mem (copied k.heap.heap b p n) (p - 16) :=
    Mem.load_congr fun x _ h2 => hsame x (by omega)
  have hback : prevBlockData (copied k.heap.heap b p n) (p - 16) =
      prevBlockData (k.heap.heap.take (totalSize n) b).mem (p - 16) :=
    congrArg BitVec.toNat (Mem.load_congr fun x _ h2 => hsame x (by omega))
  rw [hsize.blockSize, hfields.blockSize, hback, hlink]
  refine ⟨?_, hl.back_mem hp.mem⟩
  unfold capacity metaDataSize
  omega

/-- The `free` behind the copy comes back just when the block is not the last one. -/
theorem free_copied_iff :
    (∃ heap, heapFree { k.heap.heap.take (totalSize n) b with mem := copied k.heap.heap b p n } p = .ok heap) ↔
      p + capacity k.heap.heap p ≠ k.heap.heap.stop := by
  have ht := hk.tiled
  obtain ⟨hend, hstop, hread, -⟩ := ht.visit hp.mem
  obtain ⟨hsize, hprev, -⟩ := copied_header hk hp hff hle hwrap
  have hheader := hp.header
  have hbound := ht.bound
  have hlast := hk.last
  have hsub := hp.sub_header ht
  have hcap := hp.end_eq ht
  have hnext : add64 (p - metaDataSize) (capacity k.heap.heap p + metaDataSize) = p + capacity k.heap.heap p := by
    rw [add64_of_lt (by omega)]
    omega
  constructor
  · rintro ⟨heap, hok⟩ heq
    have hreadable := (heapFree_eq_ok hok).1
    dsimp only at hreadable
    rw [hsub, hsize, hnext, heq] at hreadable
    exact absurd hreadable.2 (by show ¬_ ≤ k.heap.heap.limit; omega)
  · intro hne
    apply exists_heapFree
    · rw [hsub]
      exact hread
    · dsimp only
      rw [hsub]
      exact (ht.visit hprev).2.2.1
    · dsimp only
      rw [hsub, hsize, hnext]
      -- the block behind it is one of the heap
      obtain ⟨pre, post, hbs⟩ := List.append_of_mem hp.mem
      have htile := ht.tiled
      rw [hbs] at htile
      cases post with
      | nil => exact absurd (hcap.symm.trans (htile.end_iff.2 rfl)) hne
      | cons d post =>
        obtain ⟨x, -, hx, -, hd, -⟩ := tiled_append.1 htile
        subst hx
        rw [← hcap, ← hd]
        exact (ht.visit (hbs ▸ by simp)).2.2.1

/-- What the `free` writes belongs to the block, or to a free one. -/
theorem free_copied_of_other {heap : Heap} {d : Nat}
    (hok : heapFree { k.heap.heap.take (totalSize n) b with mem := copied k.heap.heap b p n } p = .ok heap)
    (hd : d ∈ bs) (hother : d = b ∨ allocated k.heap.heap.mem d = true ∧ d ≠ p - metaDataSize) (h1 : d ≤ x)
    (h2 : x < d + blockSize k.heap.heap.mem d) : heap.mem x = copied k.heap.heap b p n x := by
  have ht := hk.tiled
  obtain ⟨hb, hfree⟩ := mem_of_firstFree hff
  obtain ⟨hal, -⟩ := totalSize_spec hwrap
  obtain ⟨-, hprev, hprevLe⟩ := copied_header hk hp hff hle hwrap
  have hheader := hp.header
  obtain ⟨-, w, hw, hkept⟩ := heapFree_eq_ok hok
  dsimp only at hw hkept
  rw [hp.sub_header ht] at hw
  -- the header that is written is not that of this block
  have hdw : w ∈ bs ∧ d ≠ w := by
    rcases hw with rfl | ⟨rfl, hunused⟩
    · refine ⟨hp.mem, ?_⟩
      rcases hother with rfl | ⟨-, hne⟩
      · exact (hp.ne_free hfree).symm
      · exact hne
    · refine ⟨hprev, ?_⟩
      intro heq
      rw [← heq] at hunused hprevLe
      have hfields : SameFields (k.heap.heap.take (totalSize n) b).mem (copied k.heap.heap b p n) d :=
        Mem.load_congr fun y _ hy => (copied_eq hk hff hle hwrap).2 (.inl (by unfold metaDataSize at *; omega))
      rw [hfields.allocated] at hunused
      by_cases hdb : d = b
      · rw [hdb, (take_self hle).2] at hunused
        cases hunused
      · rw [(ht.blocks.take_other hb hal hle (.inl hd) hdb).1.allocated, (hother.resolve_left hdb).1] at hunused
        cases hunused
  refine hkept x ?_
  have hwge := ht.size_ge hdw.1
  rcases ht.tiled.apart hd hdw.1 hdw.2 with h | h
  · left; omega
  · right; omega

end

/-- Where the copy takes the byte from that the block at `q` holds afterwards at its place `i`. -/
def sourceOf (p q n i : Nat) : Nat := if p ≤ q + i ∧ q + i < p + n then q + (q + i - p) else q + i

section
variable {k k' : Kernel} {bs : List Nat} {b p n r : Nat}

/-- What a call that comes back leaves in the new block, and in the others in use. -/
theorem realloc_mem (hk : ReallocHeap k bs) (hp : LiveAt k.heap.heap bs p)
    (hff : k.heap.heap.firstFree bs = some b) (hle : totalSize n ≤ blockSize k.heap.heap.mem b)
    (h : ReallocReturns p n k r k') :
    (∀ i < n, k'.heap.heap.mem (r + i) = k.heap.heap.mem (sourceOf p (b + metaDataSize) n i)) ∧
      ∀ x, InOther k.heap.heap bs p x → k'.heap.heap.mem x =
        if p ≤ x ∧ x < p + n then k.heap.heap.mem (b + metaDataSize + (x - p)) else k.heap.heap.mem x := by
  obtain ⟨hroom, rfl, heap, hheap, rfl⟩ := (reallocReturns_iff hk hp hff hle).1 h
  have hwrap := hk.fits_of_le hroom
  have ht := hk.tiled
  obtain ⟨hb, hfree⟩ := mem_of_firstFree hff
  obtain ⟨hal, hfit⟩ := totalSize_spec hwrap
  obtain ⟨hend, hstop, -, -⟩ := ht.visit hb
  have hbound := ht.bound
  constructor
  · intro i hi
    have hin : b + metaDataSize + i < b + blockSize k.heap.heap.mem b := by
      unfold metaDataSize
      omega
    refine (free_copied_of_other hk hp hff hle hwrap hheap hb (.inl rfl) (by omega) hin).trans ?_
    unfold sourceOf
    split_ifs with hover
    · -- the copy has run over the new block itself
      exact (copied_eq hk hff hle hwrap).1 hover.1 hover.2
    · refine ((copied_eq hk hff hle hwrap).2 (by omega)).trans (take_of_lt ?_ fun _ => .inl ?_)
      · unfold metaDataSize
        omega
      · rw [add64_of_lt (by omega)]
        unfold metaDataSize
        omega
  · rintro x ⟨d, hd, hused, hne, h1, h2⟩
    refine (free_copied_of_other hk hp hff hle hwrap hheap hd (.inr ⟨hused, hne⟩) h1 h2).trans ?_
    split_ifs with hover
    · exact (copied_eq hk hff hle hwrap).1 hover.1 hover.2
    · refine ((copied_eq hk hff hle hwrap).2 (by omega)).trans (ht.blocks.take_of_outside hb hal hle ?_)
      have hdb : d ≠ b := by
        rintro rfl
        rw [hfree] at hused
        cases hused
      rcases ht.tiled.apart hd hb hdb with h3 | h3
      · left; omega
      · right; omega

/-- Copied over the block, the contents of the new one change no byte that was to be kept: `b` is the free block it is
made of. -/
structure CopyAgrees (h : Heap) (bs : List Nat) (p n b : Nat) : Prop where
  room : p + n ≤ h.limit
  notLast : p + capacity h p ≠ h.stop
  contents : ∀ i < min (capacity h p) n, h.mem (sourceOf p (b + metaDataSize) n i) = h.mem (p + i)
  others : ∀ i < n, InOther h bs p (p + i) → h.mem (b + metaDataSize + i) = h.mem (p + i)

/-- The contents are kept just when the copy ends inside the pages of the heap, the block is not the last one, the block
handed out happens to hold what the old one held, and what the copy takes to other blocks in use is what they hold. -/
theorem realloc_keeps_iff (hk : ReallocHeap k bs) (hp : LiveAt k.heap.heap bs p) (_hn : n < 2 ^ 64)
    (halloc : ∃ fuel q heap, imallocAlocator fuel k.heap.heap n = .ok (some (q, heap))) :
    ReallocKeeps k bs p n ↔ ∃ b, k.heap.heap.firstFree bs = some b ∧ CopyAgrees k.heap.heap bs p n b := by
  obtain ⟨fuel, q, heap, hok⟩ := halloc
  obtain ⟨b, hff, hle⟩ := hk.served hok
  constructor
  · rintro ⟨r, k', hret, hkeep, hothers⟩
    obtain ⟨hnew, hold⟩ := realloc_mem hk hp hff hle hret
    obtain ⟨hroom, -, heap', hheap, -⟩ := (reallocReturns_iff hk hp hff hle).1 hret
    have hnotLast := (free_copied_iff hk hp hff hle (hk.fits_of_le hroom)).1 ⟨heap', hheap⟩
    refine ⟨b, hff, hroom, hnotLast, fun i hi => ?_, fun i hi hin => ?_⟩
    · exact (hnew i (hi.trans_le (min_le_right _ _))).symm.trans (hkeep i hi)
    · have heq := hold _ hin
      rw [if_pos ⟨by omega, by omega⟩, Nat.add_sub_cancel_left] at heq
      exact heq.symm.trans (hothers _ hin)
  · rintro ⟨b', hff', hroom, hnotLast, hkeep, hothers⟩
    obtain rfl : b = b' := Option.some.inj (hff.symm.trans hff')
    obtain ⟨heap', hheap⟩ := (free_copied_iff hk hp hff hle (hk.fits_of_le hroom)).2 hnotLast
    have hret := (reallocReturns_iff hk hp hff hle).2 ⟨hroom, rfl, heap', hheap, rfl⟩
    obtain ⟨hnew, hold⟩ := realloc_mem hk hp hff hle hret
    refine ⟨_, _, hret, fun i hi => ?_, fun x hin => ?_⟩
    · exact (hnew i (hi.trans_le (min_le_right _ _))).trans (hkeep i hi)
    · rw [hold x hin]
      split_ifs with hover
      · have heq := hothers (x - p) (by omega)
        rw [Nat.add_sub_cancel' hover.1] at heq
        exact heq hin
      · rfl

end

/-- A block of 16 bytes that holds a one, another one in use, and a free one behind them. -/
def reallocKernel : Kernel :=
  let h := laidHeap 0xFFFFFF0000000000 2 0xFFFFFF0000002000 0 [(true, 32), (true, 32), (false, 8112)]
  { newKernel with heap := ⟨{ h with mem := Function.update h.mem 0xFFFFFF0000000020 1 }, []⟩ }

theorem reallocKernel_linked :
    HeapLinked reallocKernel.heap.heap [0xFFFFFF0000000010, 0xFFFFFF0000000030, 0xFFFFFF0000000050] := by
  have hl : HeapLinked (laidHeap 0xFFFFFF0000000000 2 0xFFFFFF0000002000 0 [(true, 32), (true, 32), (false, 8112)])
      [0xFFFFFF0000000010, 0xFFFFFF0000000030, 0xFFFFFF0000000050] :=
    laidHeap_linked ⟨by decide, rfl, by decide, by decide, by decide, by decide⟩
  refine hl.write (List.mem_cons_self ..) fun x hx => Function.update_of_ne ?_ ..
  rintro rfl
  exact absurd hx (by decide +kernel)

theorem reallocKernel_heap :
    ReallocHeap reallocKernel [0xFFFFFF0000000010, 0xFFFFFF0000000030, 0xFFFFFF0000000050] where
  toKernelHeap := newKernel_heap reallocKernel_linked.toHeapTiled rfl rfl
  links := reallocKernel_linked.links
  last := by decide
  ends := by
    refine ⟨.badAddress 0xFFFFFF0000002000, ?_⟩
    unfold physOf
    rw [show translateByte reallocKernel.mem reallocKernel.sched.cr3 reallocKernel.heap.heap.limit = none from
      translateByte_zero ..]
    rfl

theorem reallocKernel_live :
    LiveAt reallocKernel.heap.heap [0xFFFFFF0000000010, 0xFFFFFF0000000030, 0xFFFFFF0000000050] 0xFFFFFF0000000020 :=
  ⟨by decide, by decide, by decide +kernel⟩

theorem reallocKernel_firstFree : reallocKernel.heap.heap.firstFree
    [0xFFFFFF0000000010, 0xFFFFFF0000000030, 0xFFFFFF0000000050] = some 0xFFFFFF0000000050 := by decide +kernel

theorem reallocKernel_room : totalSize 16 ≤ blockSize reallocKernel.heap.heap.mem 0xFFFFFF0000000050 := by decide +kernel

theorem reallocKernel_alloc :
    ∃ fuel q heap, imallocAlocator fuel reallocKernel.heap.heap 16 = .ok (some (q, heap)) := by
  obtain ⟨fuel, hok⟩ :=
    (reallocKernel_heap.tiled.served_iff reallocKernel_firstFree).2 ⟨reallocKernel_room, rfl, rfl⟩
  exact ⟨fuel, _, _, hok⟩

theorem realloc_keeps_iff_reallocKernel :
    ReallocKeeps reallocKernel [0xFFFFFF0000000010, 0xFFFFFF0000000030, 0xFFFFFF0000000050] 0xFFFFFF0000000020 16 ↔
      ∃ b, reallocKernel.heap.heap.firstFree [0xFFFFFF0000000010, 0xFFFFFF0000000030, 0xFFFFFF0000000050] = some b ∧
        CopyAgrees reallocKernel.heap.heap [0xFFFFFF0000000010, 0xFFFFFF0000000030, 0xFFFFFF0000000050]
          0xFFFFFF0000000020 16 b :=
  realloc_keeps_iff reallocKernel_heap reallocKernel_live (by decide) reallocKernel_alloc

/-- Moved to a new block of 16 bytes, the one is gone: the copy has put the zeros of the new block in its place. -/
theorem realloc_loses :
    ReallocHeap reallocKernel [0xFFFFFF0000000010, 0xFFFFFF0000000030, 0xFFFFFF0000000050] ∧
      LiveAt reallocKernel.heap.heap [0xFFFFFF0000000010, 0xFFFFFF0000000030, 0xFFFFFF0000000050] 0xFFFFFF0000000020 ∧
      (∃ fuel q heap, imallocAlocator fuel reallocKernel.heap.heap 16 = .ok (some (q, heap))) ∧
        ¬ReallocKeeps reallocKernel [0xFFFFFF0000000010, 0xFFFFFF0000000030, 0xFFFFFF0000000050] 0xFFFFFF0000000020 16 := by
  refine ⟨reallocKernel_heap, reallocKernel_live, reallocKernel_alloc, ?_⟩
  rintro ⟨r, k', hret, hkeep, -⟩
  obtain ⟨hnew, -⟩ :=
    realloc_mem reallocKernel_heap reallocKernel_live reallocKernel_firstFree reallocKernel_room hret
  have hbyte := (hnew 0 (by decide)).symm.trans (hkeep 0 (by decide +kernel))
  exact absurd hbyte (by decide +kernel)

end Icarus.Alloc
