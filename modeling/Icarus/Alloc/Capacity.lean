/-
The room in the blocks that `Imalloc_alocator` and `Icalloc` return, for every 64 bit size: a size that wraps around when
the header is added, or a product that wraps around, is served with too small a block as soon as any block is free.
-/
import Icarus.Alloc.Exhaustion

namespace Icarus.Alloc

open Icarus.Base Icarus.Memory Icarus.Processes Relation

/-! ## `Imemset` -/

section
variable {k k' : Kernel} {v : BitVec 8} {n addr a : Nat}

/-- A byte is written at its address only, of the heap or of physical memory. -/
theorem storeByte_heap (h : storeByte k a v = .ok k') : k'.heap.heap = { k.heap.heap with mem := k'.heap.heap.mem } ∧
    ∀ x, x ≠ a → k'.heap.heap.mem x = k.heap.heap.mem x := by
  unfold storeByte at h
  dsimp only at h
  split_ifs at h with hin
  · cases h
    exact ⟨rfl, fun x hx => Function.update_of_ne hx _ _⟩
  · obtain ⟨pa, -, h⟩ := bind_eq_ok.1 h
    cases h
    exact ⟨rfl, fun _ _ => rfl⟩

/-- `Imemset` writes the bytes of its range only. -/
theorem imemset_heap (hend : addr + n < 2 ^ 64) (h : imemset v n addr k = .ok k') :
    k'.heap.heap = { k.heap.heap with mem := k'.heap.heap.mem } ∧
      ∀ x, x < addr ∨ addr + n ≤ x → k'.heap.heap.mem x = k.heap.heap.mem x := by
  induction n generalizing addr k with
  | zero =>
    cases h
    exact ⟨rfl, fun _ _ => rfl⟩
  | succ n ih =>
    unfold imemset at h
    obtain ⟨k₁, hstore, h⟩ := bind_eq_ok.1 h
    rw [add64_of_lt (by omega)] at h
    obtain ⟨h1, h2⟩ := storeByte_heap hstore
    obtain ⟨h3, h4⟩ := ih (by omega) h
    refine ⟨?_, fun x hx => (h4 x (by omega)).trans (h2 x (by omega))⟩
    rw [h3, h1]

/-- In the pages of the heap it comes to its end. -/
theorem imemset_inside (hstart : k.heap.heap.heapStart ≤ addr + metaDataSize) (hlimit : addr + n ≤ k.heap.heap.limit)
    (hend : addr + n < 2 ^ 64) : ∃ k', imemset v n addr k = .ok k' := by
  induction n generalizing addr k with
  | zero => exact ⟨k, rfl⟩
  | succ n ih =>
    obtain ⟨k₁, hk₁⟩ : ∃ k₁, storeByte k addr v = .ok k₁ := by
      unfold storeByte
      exact ⟨_, if_pos ⟨hstart, by omega⟩⟩
    obtain ⟨h1, -⟩ := storeByte_heap hk₁
    obtain ⟨k', hk'⟩ := @ih k₁ (addr + 1) (by rw [h1]; dsimp only; omega)
      (by rw [h1]; dsimp only; omega) (by omega)
    refine ⟨k', bind_eq_ok.2 ⟨k₁, hk₁, ?_⟩⟩
    rw [add64_of_lt (by omega)]
    exact hk'

end

/-! ## Capacity -/

/-- The block at `p` is one of those that tile the heap, all of at least 16 bytes, and holds `size` bytes. -/
def Holds (h : Heap) (p size : Nat) : Prop :=
  ∃ bs, HeapTiled h bs ∧ sub64 p metaDataSize ∈ bs ∧ size + metaDataSize ≤ blockSize h.mem (sub64 p metaDataSize)

/-- The call comes back, with a failure value or with a block that holds `size` bytes. -/
def CapacityKept (returns : Nat → Kernel → Prop) (size : Nat) : Prop :=
  (∃ r k', returns r k') ∧ ∀ r k', returns r k' → (r = 0 ∨ r = frameAllocFailed) ∨ Holds k'.heap.heap r size

/-- A call of `Icalloc` comes back. -/
def CallocReturns (units unitSize : Nat) (k : Kernel) (r : Nat) (k' : Kernel) : Prop :=
  ∃ fuel, icalloc fuel units unitSize k = .ok (r, k')

/-- The first free block serves the request. -/
def ServedInside (h : Heap) (bs : List Nat) (size : Nat) : Prop :=
  ∃ b, h.firstFree bs = some b ∧ totalSize size ≤ blockSize h.mem b

/-- The scan gives up: at the first free block, which is too small, or behind a heap that is all in use. -/
def GivesUp (h : Heap) (bs : List Nat) (size : Nat) : Prop :=
  match h.firstFree bs with
  | some b => blockSize h.mem b < totalSize size
  | none => ∃ a, ReflTransGen h.Over h.stop a ∧ h.Misses (totalSize size) a

section
variable {k k' k₁ : Kernel} {h : Heap} {bs : List Nat} {size units unitSize r : Nat}

theorem callocReturns_iff : CallocReturns units unitSize k r k' ↔
    ∃ k₁, Returns (mul64 units unitSize) k r k₁ ∧ imemset 0 (mul64 units unitSize) r k₁ = .ok k' := by
  constructor
  · rintro ⟨fuel, h⟩
    obtain ⟨⟨ptr, k₁⟩, hptr, h⟩ := bind_eq_ok.1 h
    obtain ⟨k₂, hset, h⟩ := bind_eq_ok.1 h
    cases h
    exact ⟨k₁, ⟨fuel, hptr⟩, hset⟩
  · rintro ⟨k₁, ⟨fuel, hptr⟩, hset⟩
    exact ⟨fuel, bind_eq_ok.2 ⟨_, hptr, bind_eq_ok.2 ⟨_, hset, rfl⟩⟩⟩

theorem givesUp_iff (ht : HeapTiled h bs) :
    (∃ fuel, imallocAlocator fuel h size = .ok none) ↔ GivesUp h bs size := by
  unfold GivesUp
  cases hff : h.firstFree bs with
  | none => exact ht.refused_behind_iff hff
  | some b => exact ht.refused_iff hff

/-- Served inside the heap, the call returns that block and nothing else. -/
theorem returns_of_servedInside (hk : KernelHeap k bs) {b : Nat} (hff : k.heap.heap.firstFree bs = some b)
    (hle : totalSize size ≤ blockSize k.heap.heap.mem b) : Returns size k r k' ↔
      r = b + metaDataSize ∧ k' = withBlock k (k.heap.heap.take (totalSize size) b) r size := by
  have ht := hk.tiled
  rw [returns_iff hk]
  constructor
  · rintro (⟨heap, hscan, rfl⟩ | ⟨hscan, -⟩)
    · obtain ⟨-, rfl, rfl⟩ := (ht.served_iff hff).1 hscan
      exact ⟨rfl, rfl⟩
    · exact absurd ((ht.refused_iff hff).1 hscan) (by omega)
  · rintro ⟨rfl, rfl⟩
    exact .inl ⟨_, (ht.served_iff hff).2 ⟨hle, rfl, rfl⟩, rfl⟩

/-- Otherwise the call fails where the refused list reads as empty, or leaves the heap. -/
theorem returns_of_not_servedInside (hk : KernelHeap k bs) (hnot : ¬ServedInside k.heap.heap bs size) :
    Returns size k r k' ↔
      (∃ a, k.heap.heap.firstFree bs = none ∧ ReflTransGen k.heap.heap.Over k.heap.heap.stop a ∧
        k.heap.heap.Fits (totalSize size) a ∧ r = add64 a metaDataSize ∧
          k' = withBlock k (k.heap.heap.take (totalSize size) a) r size) ∨
      GivesUp k.heap.heap bs size ∧ readWord k refusedInfo = .ok 0 ∧ r = frameAllocFailed ∧ k' = k := by
  have ht := hk.tiled
  rw [returns_iff hk, givesUp_iff ht]
  refine or_congr_left ?_
  constructor
  · rintro ⟨heap, hscan, rfl⟩
    cases hff : k.heap.heap.firstFree bs with
    | none =>
      obtain ⟨a, hr, hf, rfl, rfl⟩ := (ht.served_behind_iff hff).1 hscan
      exact ⟨a, rfl, hr, hf, rfl, rfl⟩
    | some b => exact absurd ⟨b, hff, ((ht.served_iff hff).1 hscan).1⟩ hnot
  · rintro ⟨a, hfull, hr, hf, rfl, rfl⟩
    exact ⟨_, (ht.served_behind_iff hfull).2 ⟨a, hr, hf, rfl, rfl⟩, rfl⟩

/-- Giving up and leaving the heap exclude each other. -/
theorem not_fits_of_givesUp (hfull : h.firstFree bs = none) (hgives : GivesUp h bs size) {a : Nat}
    (hr : ReflTransGen h.Over h.stop a) : ¬h.Fits (totalSize size) a := by
  intro hf
  unfold GivesUp at hgives
  rw [hfull] at hgives
  obtain ⟨c, hc, hm⟩ := hgives
  obtain rfl := h.stops_unique hr (.fits hf) hc (.misses hm)
  exact absurd (hm.small hf.more).2 (by have := hf.le; omega)

/-- A block of 63 bits of size holds no more. -/
theorem Holds.lt (hh : Holds h r size) : size < 2 ^ 63 := by
  obtain ⟨bs, -, -, hle⟩ := hh
  have := blockSize_lt h.mem (sub64 r metaDataSize)
  omega

/-- What is written into its payload leaves a block that was taken as it is. -/
theorem holds_of_agree (ht : HeapTiled h bs) {b : Nat} (hb : b ∈ bs) (hwrap : size + 31 < 2 ^ 64)
    (hle : totalSize size ≤ blockSize h.mem b) {m : Mem}
    (hm : ∀ x, x < b + 16 ∨ b + 16 + size ≤ x → m x = (h.take (totalSize size) b).mem x) :
    Holds { h.take (totalSize size) b with mem := m } (b + metaDataSize) size := by
  obtain ⟨hal, hfit⟩ := totalSize_spec hwrap
  obtain ⟨hend, hstop, -, -⟩ := ht.visit hb
  have hbound := ht.bound
  have hge := ht.size_ge hb
  obtain ⟨bs', ht', hb'⟩ := ht.take hb hal (by omega) hle
  have hself : blockSize (h.take (totalSize size) b).mem b = totalSize size := (take_self hle).1
  obtain ⟨htiled, hsame⟩ := ht'.write hb' (m := m) fun x hx => hm x (by omega)
  have hheader := ht.header hb
  refine ⟨bs', htiled, ?_, ?_⟩
  · rwa [hheader]
  · rw [hheader]
    show _ ≤ blockSize m b
    rw [(hsame b hb').blockSize, hself]
    exact hfit

/-- Nothing is held by a block behind the heap. -/
theorem not_holds_behind (ht : HeapTiled h bs) (hfull : h.firstFree bs = none) {a t : Nat} (ha : a < 2 ^ 64)
    (hf : h.Fits t a) {h' : Heap} (hstart : h'.heapStart = h.heapStart) (hsize : h'.heapSize = h.heapSize)
    (hagree : a + 16 + size < 2 ^ 64 → ∀ x, x < a + 16 → h'.mem x = (h.take t a).mem x) :
    ¬Holds h' (add64 a metaDataSize) size := by
  rintro ⟨bs', ht', hmem, hle⟩
  rw [sub64_add64 ha] at hmem hle
  obtain ⟨hend, hstop, -, -⟩ := ht'.visit hmem
  have hbound := ht'.bound
  unfold metaDataSize at hle
  have hsame := hagree (by omega)
  have hself : blockSize (h.take t a).mem a = t := (take_self hf.le).1
  have hfields : SameFields (h.take t a).mem h'.mem a := Mem.load_congr fun x h1 h2 => hsame x (by omega)
  rw [hfields.blockSize, hself] at hend
  refine ht.not_mem_of_agree hfull hf.free ht' hstart hsize (fun x hx => ?_) hmem
  rw [hsame x (by omega)]
  refine take_of_lt (.inl hx) fun _ => .inl ?_
  rw [add64_of_lt (by omega)]
  omega

/-- A block below the direct map is not a failure value. -/
theorem not_failure {a : Nat} (hk : KernelHeap k bs) (hread : k.heap.heap.Readable a) :
    ¬(add64 a metaDataSize = 0 ∨ add64 a metaDataSize = frameAllocFailed) := by
  have hlimit := hk.below
  have hle := hread.2
  unfold kernelVma at hlimit
  unfold metaDataSize at hle ⊢
  unfold frameAllocFailed
  rw [add64_of_lt (by omega)]
  omega

/-- What follows `Imalloc_alocator` with a request for `n` bytes comes back from a payload inside the heap, and writes
into the payload only. -/
structure StaysInside (n : Nat) (after : Nat → Kernel → Kernel → Prop) : Prop where
  returns : ∀ r k, k.heap.heap.heapStart ≤ r + metaDataSize → r + n ≤ k.heap.heap.limit → r + n < 2 ^ 64 →
    ∃ k', after r k k'
  writes : ∀ r k k', after r k k' → r + n < 2 ^ 64 → k'.heap.heap = { k.heap.heap with mem := k'.heap.heap.mem } ∧
    ∀ x, x < r ∨ r + n ≤ x → k'.heap.heap.mem x = k.heap.heap.mem x

section
variable {n wanted : Nat} {after : Nat → Kernel → Kernel → Prop} (hk : KernelHeap k bs) (ha : StaysInside n after)
  (hwanted : wanted < 2 ^ 64 → n = wanted)

include hk ha hwanted

/-- Served by a free block, the request is covered just when it does not wrap around. -/
theorem capacityKept_of_served {b : Nat} (hff : k.heap.heap.firstFree bs = some b)
    (hle : totalSize n ≤ blockSize k.heap.heap.mem b) :
    CapacityKept (fun r k' => ∃ k₁, Returns n k r k₁ ∧ after r k₁ k') wanted ↔ wanted + 31 < 2 ^ 64 := by
  have ht := hk.tiled
  obtain ⟨hb, -⟩ := mem_of_firstFree hff
  obtain ⟨hend, hstop, hread, -⟩ := ht.visit hb
  have hbound := ht.bound
  have hge := ht.size_ge hb
  have hmapped := ht.mapped
  have hfails := not_failure hk hread
  rw [ht.payload hb] at hfails
  constructor
  · rintro ⟨⟨r, k', k₁, hret, haft⟩, hall⟩
    have hr := ((returns_of_servedInside hk hff hle).1 hret).1
    have hlt := ((hall r k' ⟨k₁, hret, haft⟩).resolve_left (hr ▸ hfails)).lt
    omega
  · intro hwrap
    obtain rfl := hwanted (by omega)
    obtain ⟨-, hfit⟩ := totalSize_spec hwrap
    constructor
    · obtain ⟨k', haft⟩ := ha.returns (b + metaDataSize)
        (withBlock k (k.heap.heap.take (totalSize n) b) (b + metaDataSize) n)
        (show k.heap.heap.heapStart ≤ _ from hread.1.trans (Nat.le_add_right ..))
        (show _ ≤ k.heap.heap.limit by unfold metaDataSize; omega) (by unfold metaDataSize; omega)
      exact ⟨_, k', _, (returns_of_servedInside hk hff hle).2 ⟨rfl, rfl⟩, haft⟩
    · rintro r k' ⟨k₁, hret, haft⟩
      obtain ⟨rfl, rfl⟩ := (returns_of_servedInside hk hff hle).1 hret
      obtain ⟨h1, h2⟩ := ha.writes _ _ _ haft (by unfold metaDataSize; omega)
      rw [h1]
      exact .inr (holds_of_agree ht hb hwrap hle h2)

/-- What is handed out behind the heap holds nothing. -/
theorem not_holds_after (hfull : k.heap.heap.firstFree bs = none) {a : Nat}
    (hr : ReflTransGen k.heap.heap.Over k.heap.heap.stop a) (hf : k.heap.heap.Fits (totalSize n) a)
    (haft : after (add64 a metaDataSize)
      (withBlock k (k.heap.heap.take (totalSize n) a) (add64 a metaDataSize) n) k') :
    ¬Holds k'.heap.heap (add64 a metaDataSize) wanted := by
  intro hholds
  have ht := hk.tiled
  have ha64 := ht.lt_of_reach hr
  have hlimit := hk.below
  have hle := hf.readable.2
  unfold kernelVma at hlimit
  unfold metaDataSize at hle
  have hp : add64 a metaDataSize = a + 16 := add64_of_lt (by unfold metaDataSize; omega)
  have hlt := hholds.lt
  obtain rfl := hwanted (by omega)
  by_cases hend : a + 16 + n < 2 ^ 64
  · obtain ⟨h1, h2⟩ := ha.writes _ _ _ haft (by rw [hp]; exact hend)
    refine absurd hholds (not_holds_behind ht hfull ha64 hf ?_ ?_ fun _ x hx => h2 x (.inl (by rw [hp]; exact hx)))
    · rw [h1]
      rfl
    · rw [h1]
      rfl
  · -- such a block would not end in the address space
    obtain ⟨bs', ht', hmem, hle'⟩ := hholds
    rw [sub64_add64 ha64] at hmem hle'
    obtain ⟨hend', hstop', -, -⟩ := ht'.visit hmem
    have hbound' := ht'.bound
    unfold metaDataSize at hle'
    omega

/-- `Imalloc_alocator` and `Icalloc` differ in what follows, and in the size that counts. -/
theorem capacityKept_iff : CapacityKept (fun r k' => ∃ k₁, Returns n k r k₁ ∧ after r k₁ k') wanted ↔
    ServedInside k.heap.heap bs n ∧ wanted + 31 < 2 ^ 64 ∨
      GivesUp k.heap.heap bs n ∧ readWord k refusedInfo = .ok 0 ∧ ∃ k', after frameAllocFailed k k' := by
  by_cases hserved : ServedInside k.heap.heap bs n
  · obtain ⟨b, hff, hle⟩ := hserved
    have hnot : ¬GivesUp k.heap.heap bs n := by
      unfold GivesUp
      rw [hff]
      exact Nat.not_lt.2 hle
    rw [or_iff_left (fun h => hnot h.1), capacityKept_of_served hk ha hwanted hff hle]
    exact (and_iff_right ⟨b, hff, hle⟩).symm
  · rw [or_iff_right (fun h => hserved h.1)]
    constructor
    · rintro ⟨⟨r, k', k₁, hret, haft⟩, hall⟩
      rcases (returns_of_not_servedInside hk hserved).1 hret with ⟨a, hfull, hr, hf, rfl, rfl⟩ | ⟨hgives, hword, rfl, rfl⟩
      · exact absurd ((hall _ k' ⟨_, hret, haft⟩).resolve_left (not_failure hk hf.readable))
          (not_holds_after hk ha hwanted hfull hr hf haft)
      · exact ⟨hgives, hword, k', haft⟩
    · rintro ⟨hgives, hword, k', haft⟩
      refine ⟨⟨frameAllocFailed, k', k, (returns_of_not_servedInside hk hserved).2 (.inr ⟨hgives, hword, rfl, rfl⟩), haft⟩, ?_⟩
      rintro r k'' ⟨k₁, hret, -⟩
      rcases (returns_of_not_servedInside hk hserved).1 hret with ⟨a, hfull, hr, hf, -⟩ | ⟨-, -, hr, -⟩
      · exact absurd hf (not_fits_of_givesUp hfull hgives hr)
      · exact .inl (.inr hr)

end

/-- Every size, and every product, is covered just when the first free block serves it and it does not wrap around, or
when the scan gives up and the failure comes back. -/
theorem capacity_covers_iff (hk : KernelHeap k bs) :
    (∀ size < 2 ^ 64, CapacityKept (Returns size k) size ↔
      ServedInside k.heap.heap bs size ∧ size + 31 < 2 ^ 64 ∨
        GivesUp k.heap.heap bs size ∧ readWord k refusedInfo = .ok 0) ∧
    ∀ units < 2 ^ 64, ∀ unitSize < 2 ^ 64, CapacityKept (CallocReturns units unitSize k) (units * unitSize) ↔
      ServedInside k.heap.heap bs (mul64 units unitSize) ∧ units * unitSize + 31 < 2 ^ 64 ∨
        GivesUp k.heap.heap bs (mul64 units unitSize) ∧ readWord k refusedInfo = .ok 0 ∧
          ∃ k', imemset 0 (mul64 units unitSize) frameAllocFailed k = .ok k' := by
  constructor
  · intro size _
    have hstays : StaysInside size fun _ k₁ k' => k₁ = k' :=
      ⟨fun _ k₁ _ _ _ => ⟨k₁, rfl⟩, by rintro r k₁ k' rfl -; exact ⟨rfl, fun _ _ => rfl⟩⟩
    have h := @capacityKept_iff k bs size size _ hk hstays fun _ => rfl
    simpa using h
  · intro units _ unitSize _
    have hstays : StaysInside (mul64 units unitSize) fun r k₁ k' => imemset 0 (mul64 units unitSize) r k₁ = .ok k' :=
      ⟨fun r k₁ h1 h2 h3 => imemset_inside h1 h2 h3, fun r k₁ k' haft h3 => imemset_heap h3 haft⟩
    have h := @capacityKept_iff k bs _ (units * unitSize) _ hk hstays fun h => u64_of_lt h
    have hret : (fun r k' => ∃ k₁, Returns (mul64 units unitSize) k r k₁ ∧
        imemset 0 (mul64 units unitSize) r k₁ = .ok k') = CallocReturns units unitSize k := by
      funext r k'
      exact propext callocReturns_iff.symm
    unfold mul64 at h hret ⊢
    rwa [hret] at h

end

/-- The new kernel with a heap of two pages, all of it free. -/
def freeKernel : Kernel :=
  { newKernel with heap := ⟨laidHeap 0xFFFFFF0000000000 2 0xFFFFFF0000002000 0 [(false, 8176)], []⟩ }

theorem freeKernel_heap : KernelHeap freeKernel [0xFFFFFF0000000010] :=
  newKernel_heap (laidHeap_tiled ⟨by decide, rfl, by decide, by decide, by decide, by decide⟩) rfl rfl

theorem capacity_covers_iff_freeKernel :
    (∀ size < 2 ^ 64, CapacityKept (Returns size freeKernel) size ↔
      ServedInside freeKernel.heap.heap [0xFFFFFF0000000010] size ∧ size + 31 < 2 ^ 64 ∨
        GivesUp freeKernel.heap.heap [0xFFFFFF0000000010] size ∧ readWord freeKernel refusedInfo = .ok 0) ∧
    ∀ units < 2 ^ 64, ∀ unitSize < 2 ^ 64, CapacityKept (CallocReturns units unitSize freeKernel) (units * unitSize) ↔
      ServedInside freeKernel.heap.heap [0xFFFFFF0000000010] (mul64 units unitSize) ∧ units * unitSize + 31 < 2 ^ 64 ∨
        GivesUp freeKernel.heap.heap [0xFFFFFF0000000010] (mul64 units unitSize) ∧
          readWord freeKernel refusedInfo = .ok 0 ∧
            ∃ k', imemset 0 (mul64 units unitSize) frameAllocFailed freeKernel = .ok k' :=
  capacity_covers_iff freeKernel_heap

/-- A request for 2 ^ 64 - 1 bytes gets a block of 16, header included, and so do 2 ^ 32 units of 2 ^ 32 bytes. -/
theorem capacity_not_covered : KernelHeap freeKernel [0xFFFFFF0000000010] ∧
    ¬CapacityKept (Returns (2 ^ 64 - 1) freeKernel) (2 ^ 64 - 1) ∧
      ¬CapacityKept (CallocReturns (2 ^ 32) (2 ^ 32) freeKernel) (2 ^ 32 * 2 ^ 32) := by
  have hff : freeKernel.heap.heap.firstFree [0xFFFFFF0000000010] = some 0xFFFFFF0000000010 := by decide +kernel
  have hread := (freeKernel_heap.tiled.visit (mem_of_firstFree hff).1).2.2.1
  have hfails := not_failure freeKernel_heap hread
  have hle : ∀ size, size = 2 ^ 64 - 1 ∨ size = 0 →
      totalSize size ≤ blockSize freeKernel.heap.heap.mem 0xFFFFFF0000000010 := by
    rintro size (rfl | rfl)
    · decide +kernel
    · decide +kernel
  refine ⟨freeKernel_heap, ?_, ?_⟩
  · rintro ⟨⟨r, k', hret⟩, hall⟩
    obtain ⟨rfl, -⟩ := (returns_of_servedInside freeKernel_heap hff (hle _ (.inl rfl))).1 hret
    exact absurd ((hall _ k' hret).resolve_left hfails).lt (by decide)
  · rintro ⟨⟨r, k', hret⟩, hall⟩
    obtain ⟨k₁, hret₁, -⟩ := callocReturns_iff.1 hret
    obtain ⟨rfl, -⟩ := (returns_of_servedInside freeKernel_heap hff (hle _ (.inr (by decide)))).1 hret₁
    exact absurd ((hall _ k' hret).resolve_left hfails).lt (by decide)

end Icarus.Alloc
