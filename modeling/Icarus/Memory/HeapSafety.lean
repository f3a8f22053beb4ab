/-
The safety of the heap over whole runs: as long as no `free` merges blocks and no request wraps
around, the headers tile the range of the root block and the payloads in use are disjoint and
inside it.
-/
import Icarus.Memory.HeapBlocks

namespace Icarus.Memory

open Icarus.Base

/-! ## The scan -/

/-- What an allocation that is served did: a free block of the scanned ones was taken whole, or cut. -/
inductive Served (h : Heap) (size : Nat) (bs : List Nat) : Nat → Heap → Prop
  | exact (pre : List Nat) (b : Nat) (post : List Nat) : bs = pre ++ b :: post → allocated h.mem b = false →
      blockSize h.mem b = size → Served h size bs (b + 16) { h with mem := setAllocated h.mem b true }
  | split (pre : List Nat) (b : Nat) (post : List Nat) : bs = pre ++ b :: post → allocated h.mem b = false →
      size < blockSize h.mem b → Served h size bs (b + 16) { h with mem := splitBlock h.mem b size }

theorem Served.cons {h h' : Heap} {size p b : Nat} {bs : List Nat} (hs : Served h size bs p h') :
    Served h size (b :: bs) p h' := by
  cases hs with
  | exact pre c post he hf hc => exact .exact (b :: pre) c post (by rw [he]; rfl) hf hc
  | split pre c post he hf hc => exact .split (b :: pre) c post (by rw [he]; rfl) hf hc

/-- Either way the block is one of these, and was free. -/
theorem Served.take {h h' : Heap} {size p : Nat} {bs : List Nat} (hs : Served h size bs p h') :
    ∃ b ∈ bs, allocated h.mem b = false ∧ size ≤ blockSize h.mem b ∧ p = b + 16 ∧ h' = h.take size b := by
  unfold Heap.take
  cases hs with
  | exact pre b post he hfree hb =>
    refine ⟨b, by rw [he]; simp, hfree, hb.ge, rfl, ?_⟩
    rw [if_pos hb]
  | split pre b post he hfree hlt =>
    refine ⟨b, by rw [he]; simp, hfree, hlt.le, rfl, ?_⟩
    rw [if_neg hlt.ne']

/-- Nothing behind the blocks `[.., e)` can be served: no page is mapped there, or what is there reads
as a free header too small for any request. -/
def NoHeaderAt (h : Heap) (e : Nat) : Prop :=
  h.limit < e + 16 ∨ allocated h.mem e = false ∧ blockSize h.mem e < 16

/-- A header outside the mapped pages stops the call. -/
theorem touch_eq_ok {h : Heap} {a : Nat} {u : Unit} :
    h.touch a = .ok u ↔ h.heapStart ≤ a + metaDataSize ∧ a + metaDataSize ≤ h.limit := by
  unfold Heap.touch
  split_ifs with ht
  · simp [ht]
  · simp [ht]

theorem imallocScan_served {h h' : Heap} {size p e : Nat} (hs : 16 ≤ size) (he : e + 16 < 2 ^ 64)
    (hpast : NoHeaderAt h e) {fuel header : Nat} {bs : List Nat} (ht : Tiled (blockSize h.mem) header bs e)
    (hok : imallocScan fuel size header h = .ok (some (p, h'))) : Served h size bs p h' := by
  induction fuel generalizing header bs with
  | zero => cases hok
  | succ fuel ih =>
    unfold imallocScan at hok
    obtain ⟨_, htouch, hok⟩ := bind_eq_ok.1 hok
    have hmapped := (touch_eq_ok.1 htouch).2
    unfold metaDataSize at hmapped
    cases bs with
    | nil =>
      -- past the last block
      obtain rfl : header = e := ht
      rcases hpast with hlim | ⟨hfree, hsmall⟩
      · omega
      · split_ifs at hok with h1 h2 h3 h4
        · simp only [Bool.and_eq_true, beq_iff_eq] at h2
          omega
        · simp only [Bool.and_eq_true, decide_eq_true_eq] at h3
          omega
        · cases hok
        · rw [hfree] at h4
          exact absurd rfl h4
        · cases hok
    | cons b bs =>
      obtain ⟨rfl, hpos, ht'⟩ := ht
      have hle := ht'.le
      rw [add64_of_lt (by omega)] at hok
      have haddr : add64 b metaDataSize = b + 16 := add64_of_lt (by unfold metaDataSize; omega)
      rw [haddr] at hok
      split_ifs at hok with h1 h2 h3 h4
      · simp only [Bool.and_eq_true, Bool.not_eq_true', beq_iff_eq] at h2
        cases hok
        exact .exact [] b bs rfl h2.1 h2.2
      · simp only [Bool.and_eq_true, Bool.not_eq_true', decide_eq_true_eq] at h3
        obtain ⟨_, -, hok⟩ := bind_eq_ok.1 hok
        cases hok
        exact .split [] b bs rfl h3.1 h3.2
      · cases hok
      · exact (ih ht' hok).cons
      · cases hok

/-! ## Runs -/

/-- A heap with the blocks its callers hold: where the payload starts and how much was requested. -/
structure HeapRun where
  heap : Heap
  live : List (Nat × Nat)

/-- What a caller of the heap does. -/
inductive HeapOp
  | alloc (size : Nat)
  | free (addr : Nat)
  | write (mem : Mem)

/-- A request served without growing the heap, a block given back by its holder, or writes of the
holders into their payloads. -/
inductive HeapStep : HeapRun → HeapOp → HeapRun → Prop
  | alloc {r : HeapRun} {size p : Nat} {h : Heap} (fuel : Nat) : size < 2 ^ 64 →
      imallocAlocator fuel r.heap size = .ok (some (p, h)) → HeapStep r (.alloc size) ⟨h, (p, size) :: r.live⟩
  | free {r : HeapRun} {p size : Nat} {h : Heap} : (p, size) ∈ r.live → heapFree r.heap p = .ok h →
      HeapStep r (.free p) ⟨h, r.live.erase (p, size)⟩
  | write {r : HeapRun} {mem : Mem} : (∀ a, (∀ b ∈ r.live, a < b.1 ∨ b.1 + b.2 ≤ a) → mem a = r.heap.mem a) →
      HeapStep r (.write mem) ⟨{ r.heap with mem }, r.live⟩

/-- No merge and no wrap-around: a freed block has no free neighbour, as its header sees them, and the
size of a requested block fits 64 bits. -/
def HeapOp.Plain (r : HeapRun) : HeapOp → Prop
  | .alloc size => size + 31 < 2 ^ 64
  | .free addr =>
    let header := sub64 addr metaDataSize
    allocated r.heap.mem (sub64 header (prevBlockData r.heap.mem header)) = true ∧
      allocated r.heap.mem (add64 header (blockSize r.heap.mem header)) = true
  | .write _ => True

/-- Runs whose every step is plain. -/
inductive PlainRun (r₀ : HeapRun) : HeapRun → Prop
  | refl : PlainRun r₀ r₀
  | step {r r' : HeapRun} {op : HeapOp} : PlainRun r₀ r → HeapStep r op r' → op.Plain r → PlainRun r₀ r'

/-- The headers from `heapStart` on tile `[start, stop)`, and the payloads in use are disjoint and
inside it. -/
structure HeapSafe (start stop : Nat) (r : HeapRun) : Prop where
  tiles : ∃ bs, Tiled (blockSize r.heap.mem) start bs stop
  inside : ∀ b ∈ r.live, start ≤ b.1 ∧ b.1 + b.2 ≤ stop
  disjoint : r.live.Pairwise fun b c => b.1 + b.2 ≤ c.1 ∨ c.1 + c.2 ≤ b.1

/-! ## The invariant -/

/-- The payload `b` belongs to an allocated block that is large enough for it. -/
structure Held (m : Mem) (bs : List Nat) (b : Nat × Nat) : Prop where
  header : 16 ≤ b.1
  mem : b.1 - 16 ∈ bs
  allocated : allocated m (b.1 - 16) = true
  fits : b.2 + 16 ≤ blockSize m (b.1 - 16)

/-- The blocks tile the range, every live payload has a block of its own, and no header is found behind them. -/
structure HeapInv (start stop : Nat) (bs : List Nat) (r : HeapRun) : Prop where
  tiled : Tiled (blockSize r.heap.mem) start bs stop
  aligned : ∀ b ∈ bs, blockSize r.heap.mem b % 16 = 0
  held : ∀ b ∈ r.live, Held r.heap.mem bs b
  distinct : r.live.Pairwise fun b c => b.1 ≠ c.1
  start_eq : r.heap.heapStart = start
  past : NoHeaderAt r.heap stop
  bound : stop + 16 < 2 ^ 64

section
variable {start stop : Nat} {bs : List Nat} {r r' : HeapRun}

theorem HeapInv.blocks (h : HeapInv start stop bs r) : Blocks r.heap.mem start stop bs := ⟨h.tiled, h.aligned, h.bound⟩

/-- Two payloads in use belong to different blocks. -/
theorem HeapInv.payloads_apart (h : HeapInv start stop bs r) {b c : Nat × Nat} (hb : b ∈ r.live) (hc : c ∈ r.live)
    (hne : b.1 ≠ c.1) : b.1 + b.2 ≤ c.1 ∨ c.1 + c.2 ≤ b.1 := by
  have hb' := h.held b hb
  have hc' := h.held c hc
  have h1 := hb'.header
  have h2 := hc'.header
  have h3 := hb'.fits
  have h4 := hc'.fits
  rcases h.tiled.apart hb'.mem hc'.mem (by omega) with h5 | h5
  · left; omega
  · right; omega

theorem HeapInv.safe (h : HeapInv start stop bs r) : HeapSafe start stop r := by
  refine ⟨⟨bs, h.tiled⟩, fun b hb => ?_, ?_⟩
  · obtain ⟨h1, h2, -, h3⟩ := h.held b hb
    have := h.tiled.bounds h2
    omega
  · exact h.distinct.imp_of_mem fun hb hc hne => h.payloads_apart hb hc hne

/-- Writes into payloads touch no header. -/
theorem HeapInv.write (h : HeapInv start stop bs r) {mem : Mem}
    (hw : ∀ a, (∀ b ∈ r.live, a < b.1 ∨ b.1 + b.2 ≤ a) → mem a = r.heap.mem a) :
    HeapInv start stop bs ⟨{ r.heap with mem }, r.live⟩ := by
  have hsame : ∀ x, x ∈ bs ∨ x = stop → SameFields r.heap.mem mem x := by
    intro x hx
    refine Mem.load_congr fun a h1 h2 => hw a fun b hb => ?_
    obtain ⟨hb1, hb2, -, hb3⟩ := h.held b hb
    have := h.blocks.payload_outside hb2 hx h1 (by omega)
    omega
  have hsize : ∀ x ∈ bs, blockSize mem x = blockSize r.heap.mem x := fun x hx => (hsame x (.inl hx)).blockSize
  have hstop := hsame stop (.inr rfl)
  have hblocks := h.blocks.congr hsize
  refine ⟨hblocks.tiled, hblocks.sizes, fun b hb => ?_, h.distinct, h.start_eq, ?_, h.bound⟩
  · obtain ⟨h1, h2, h3, h4⟩ := h.held b hb
    exact ⟨h1, h2, (hsame _ (.inl h2)).allocated.trans h3, h4.trans_eq (hsize _ h2).symm⟩
  · exact h.past.imp id fun ⟨h1, h2⟩ => ⟨hstop.allocated.trans h1, hstop.blockSize.trans_lt h2⟩

/-- A block whose neighbours are in use is only marked free. -/
theorem heapFree_plain {h h' : Heap} {p : Nat} (hok : heapFree h p = .ok h') (live : List (Nat × Nat))
    (hplain : (HeapOp.free p).Plain ⟨h, live⟩) :
    h' = { h with mem := Memory.setAllocated h.mem (sub64 p metaDataSize) false } := by
  obtain ⟨hprev, hnext⟩ := hplain
  obtain ⟨_, -, hok⟩ := bind_eq_ok.1 hok
  obtain ⟨_, -, hok⟩ := bind_eq_ok.1 hok
  dsimp only at hprev hnext hok
  rw [hprev] at hok
  obtain ⟨_, -, hok⟩ := bind_eq_ok.1 hok
  simp only [Bool.not_true, Bool.false_eq_true, if_false, hnext] at hok
  exact (Except.ok.inj hok).symm

theorem HeapInv.free (h : HeapInv start stop bs r) {p size : Nat} {h' : Heap} (hp : (p, size) ∈ r.live)
    (hok : heapFree r.heap p = .ok h') (hplain : (HeapOp.free p).Plain r) :
    HeapInv start stop bs ⟨h', r.live.erase (p, size)⟩ := by
  obtain ⟨hp1, hp2, -, -⟩ := h.held _ hp
  have hbound := h.bound
  have hle := h.tiled.bounds hp2
  have hsub : sub64 p metaDataSize = p - 16 := sub64_of_le hp1 (by omega)
  rw [heapFree_plain hok r.live hplain, hsub]
  have hblocks := h.blocks.mark hp2 false
  have hother : ∀ c, c ∈ bs ∨ c = stop → c ≠ p - 16 →
      SameFields r.heap.mem (setAllocated r.heap.mem (p - 16) false) c := fun c hc hne =>
    (h.blocks.other hp2 (fun x => h.blocks.mark_of_outside hp2 false) hc hne).1
  have hstop := hother stop (.inr rfl) (by have := h.tiled.size_pos hp2; omega)
  have hperm := List.perm_cons_erase hp
  have hdis := (hperm.pairwise_iff fun hne => hne.symm).1 h.distinct
  obtain ⟨hothers, hdis'⟩ := List.pairwise_cons.1 hdis
  refine ⟨hblocks.tiled, hblocks.sizes, fun b hb => ?_, hdis', h.start_eq, ?_, h.bound⟩
  · obtain ⟨h1, h2, h3, h4⟩ := h.held b (List.mem_of_mem_erase hb)
    have hne : b.1 - 16 ≠ p - 16 := by
      have := hothers b hb
      omega
    have hsame := hother _ (.inl h2) hne
    exact ⟨h1, h2, hsame.allocated.trans h3, h4.trans_eq hsame.blockSize.symm⟩
  · exact h.past.imp id fun ⟨h1, h2⟩ => ⟨hstop.allocated.trans h1, hstop.blockSize.trans_lt h2⟩

/-- The size of a block is a multiple of 16, wrapped around or not. -/
theorem totalSize_mod {size : Nat} : totalSize size % 16 = 0 := by
  have hdown : totalSize size = add64 (add64 size 16) 15 / 16 * 16 :=
    @alignDown_two_pow _ 4 (u64_lt _) (by decide)
  rw [hdown]
  exact Nat.mul_mod_left ..

/-- The size of a block without wrap-around: a multiple of 16 that holds the header and the payload. -/
theorem totalSize_spec {size : Nat} (h : size + 31 < 2 ^ 64) :
    totalSize size % 16 = 0 ∧ size + 16 ≤ totalSize size := by
  have heq : totalSize size = (size + 16 + 15) / 16 * 16 := by
    unfold totalSize metaDataSize heapAlignment
    rw [add64_of_lt (by omega)]
    exact @alignUp_two_pow (size + 16) 4 (by decide) (by omega)
  omega

/-- A free block is nobody's. -/
theorem HeapInv.held_ne (h : HeapInv start stop bs r) {x : Nat} (hx : allocated r.heap.mem x = false)
    {b : Nat × Nat} (hb : b ∈ r.live) : b.1 - 16 ≠ x := by
  rintro rfl
  rw [(h.held b hb).allocated] at hx
  cases hx

/-- Taking a free block keeps the invariant: its payload is one more that is held. -/
theorem HeapInv.take (h : HeapInv start stop bs r) {b size total : Nat} (hb : b ∈ bs)
    (hfree : allocated r.heap.mem b = false) (hal : total % 16 = 0) (hfit : size + 16 ≤ total)
    (hle : total ≤ blockSize r.heap.mem b) :
    ∃ bs', HeapInv start stop bs' ⟨r.heap.take total b, (b + 16, size) :: r.live⟩ := by
  obtain ⟨bs', hblocks, hsub⟩ := h.blocks.take hb hal (by omega) hle
  have hself : blockSize (r.heap.take total b).mem b = total ∧ allocated (r.heap.take total b).mem b = true :=
    take_self hle
  have hend := (h.tiled.bounds hb).2
  have hstop := (h.blocks.take_other hb hal hle (.inr rfl) (by omega)).1
  refine ⟨bs', hblocks.tiled, hblocks.sizes, ?_, ?_, h.start_eq, ?_, h.bound⟩
  · refine List.forall_mem_cons.2 ⟨⟨Nat.le_add_left .., ?_, ?_, ?_⟩, fun x hx => ?_⟩
    · rw [Nat.add_sub_cancel]
      exact hsub hb
    · rw [Nat.add_sub_cancel]
      exact hself.2
    · show size + 16 ≤ _
      rw [Nat.add_sub_cancel]
      exact hfit.trans_eq hself.1.symm
    · -- who held a block holds it still, as it was not the free one
      obtain ⟨h1, h2, h3, h4⟩ := h.held x hx
      have hsame := (h.blocks.take_other hb hal hle (.inl h2) (h.held_ne hfree hx)).1
      exact ⟨h1, hsub h2, hsame.allocated.trans h3, h4.trans_eq hsame.blockSize.symm⟩
  · refine List.pairwise_cons.2 ⟨fun x hx => ?_, h.distinct⟩
    have h1 := h.held_ne hfree hx
    have h2 := (h.held x hx).header
    dsimp only
    omega
  · exact h.past.imp id fun ⟨h1, h2⟩ => ⟨hstop.allocated.trans h1, hstop.blockSize.trans_lt h2⟩

theorem HeapInv.alloc (h : HeapInv start stop bs r) {fuel size p : Nat} {h' : Heap} (hsize : size + 31 < 2 ^ 64)
    (hok : imallocAlocator fuel r.heap size = .ok (some (p, h'))) :
    ∃ bs', HeapInv start stop bs' ⟨h', (p, size) :: r.live⟩ := by
  obtain ⟨halign, hfit⟩ := totalSize_spec hsize
  unfold imallocAlocator at hok
  rw [h.start_eq] at hok
  obtain ⟨b, hb, hfree, hle, rfl, rfl⟩ := (imallocScan_served (by omega) h.bound h.past h.tiled hok).take
  exact h.take hb hfree halign hfit hle

/-- What is held is not touched by an allocation. -/
theorem HeapInv.alloc_keeps (h : HeapInv start stop bs r) {fuel size p : Nat} {h' : Heap} (hsize : size + 31 < 2 ^ 64)
    (hok : imallocAlocator fuel r.heap size = .ok (some (p, h'))) {c : Nat × Nat} (hc : c ∈ r.live) {x : Nat}
    (h1 : c.1 ≤ x) (h2 : x < c.1 + c.2) : h'.mem x = r.heap.mem x := by
  obtain ⟨halign, hfit⟩ := totalSize_spec hsize
  unfold imallocAlocator at hok
  rw [h.start_eq] at hok
  obtain ⟨b, hb, hfree, hle, rfl, rfl⟩ := (imallocScan_served (by omega) h.bound h.past h.tiled hok).take
  have hheld := h.held c hc
  have hheader := hheld.header
  have hfits := hheld.fits
  refine h.blocks.take_of_outside hb halign hle ?_
  rcases h.tiled.apart hheld.mem hb (h.held_ne hfree hc) with hapart | hapart
  · left; omega
  · right; omega

/-- A plain step keeps the invariant. -/
theorem HeapStep.inv {op : HeapOp} (hs : HeapStep r op r') (hplain : op.Plain r) (h : HeapInv start stop bs r) :
    ∃ bs', HeapInv start stop bs' r' := by
  cases hs with
  | alloc fuel _ hok => exact h.alloc hplain hok
  | free hp hok => exact ⟨bs, h.free hp hok hplain⟩
  | write hw => exact ⟨bs, h.write hw⟩

end

/-! ## The fresh heap -/

/-- The pages of the heap lie in the address space, its size fits the field of the root block, and the
frame mapped one page behind its start holds the `struct page` that `ialloc_frames` filled for it. -/
structure HeapMapped (initialSize heapStart : Nat) (mem : Mem) : Prop where
  fits : heapStart + initialSize + 8192 < 2 ^ 64
  size : initialSize + 4096 ≤ 2 ^ 63
  info : mem.load64 (alignDown heapStart 4096 + 4096) = BitVec.ofNat 64 (alignUp initialSize 4096 / 4096)

/-- The root header alone. -/
theorem heapInv_init {initialSize heapStart : Nat} {mem : Mem} (h0 : 0 < initialSize)
    (hm : HeapMapped initialSize heapStart mem) :
    let h := initCustomAlloc initialSize heapStart mem
    HeapInv h.heapStart (h.heapStart + (h.heapSize - 16)) [h.heapStart] ⟨h, []⟩ := by
  have hfits := hm.fits
  have hsize := hm.size
  have hinfo := hm.info
  obtain ⟨base, hbase⟩ : ∃ base, alignDown heapStart 4096 = base := ⟨_, rfl⟩
  have hbase' : base = heapStart / 4096 * 4096 := by
    rw [← hbase]
    exact @alignDown_two_pow heapStart 12 (by omega) (by decide)
  obtain ⟨pages, hpages⟩ : ∃ pages, alignUp initialSize 4096 / 4096 = pages := ⟨_, rfl⟩
  have hpages' : pages = (initialSize + 4095) / 4096 := by
    have h : alignUp initialSize 4096 = (initialSize + 4095) / 4096 * 4096 :=
      @alignUp_two_pow initialSize 12 (by decide) (by omega)
    omega
  have hheader : add64 base metaDataSize = base + 16 := add64_of_lt (by unfold metaDataSize; omega)
  have htotal : mul64 pages 4096 = pages * 4096 := mul64_of_lt (by omega)
  have hroot : sub64 (pages * 4096) 16 = pages * 4096 - 16 := sub64_of_le (by omega) (by omega)
  unfold initCustomAlloc
  rw [hbase, hpages] at hinfo
  simp only [hbase, hpages, hheader, htotal, hroot]
  -- the root block starts behind the allocator and ends 16 bytes behind the pages
  set m := setPrevBlockData (setBlockSize (setAllocated mem (base + 16) false) (base + 16) (pages * 4096 - 16))
    (base + 16) 0 with hmdef
  have hbs : blockSize m (base + 16) = pages * 4096 - 16 := by
    have hprev : SameFields (setBlockSize (setAllocated mem (base + 16) false) (base + 16) (pages * 4096 - 16)) m
        (base + 16) := .setPrevBlockData .refl 0 (by omega)
    rw [hprev.blockSize, blockSize_setBlockSize _ _ (by omega)]
  have hstop : base + 16 + (pages * 4096 - 16) = base + pages * 4096 := by omega
  rw [hstop]
  refine ⟨⟨rfl, ?_, ?_⟩, fun b hb => ?_, fun b hb => (List.not_mem_nil hb).elim, List.Pairwise.nil, rfl, ?_, by omega⟩
  · rw [hbs]
    omega
  · show base + 16 + blockSize m (base + 16) = _
    rw [hbs, hstop]
  · rw [List.mem_singleton.1 hb, hbs]
    omega
  · by_cases hone : pages = 1
    · -- the page behind the heap is the one with the `struct page`
      right
      have hsame : SameFields mem m (base + pages * 4096) := by
        refine .setPrevBlockData (.setBlockSize (.setAllocated .refl _ (by omega)) _ (by omega)) _ (by omega)
      rw [hone] at hinfo hsame
      show allocated m _ = false ∧ blockSize m _ < 16
      rw [hone, hsame.allocated, hsame.blockSize]
      unfold allocated blockSize
      rw [show base + 1 * 4096 = base + 4096 by omega, hinfo]
      decide
    · left
      show base + max pages 2 * 4096 < base + pages * 4096 + 16
      omega

theorem PlainRun.inv {r₀ r : HeapRun} {start stop : Nat} {bs : List Nat} (h : PlainRun r₀ r)
    (h₀ : HeapInv start stop bs r₀) : ∃ bs', HeapInv start stop bs' r := by
  induction h with
  | refl => exact ⟨bs, h₀⟩
  | step _ hs hplain ih =>
    obtain ⟨bs', hi⟩ := ih
    exact hs.inv hplain hi

/-- From a fresh heap of any size, every run without merges and wrapping requests is safe throughout. -/
theorem heap_safe_of_plain {initialSize heapStart : Nat} {mem : Mem} {r : HeapRun} (h0 : 0 < initialSize)
    (hm : HeapMapped initialSize heapStart mem)
    (hrun : PlainRun ⟨initCustomAlloc initialSize heapStart mem, []⟩ r) :
    let h := initCustomAlloc initialSize heapStart mem
    HeapSafe h.heapStart (h.heapStart + (h.heapSize - 16)) r := by
  obtain ⟨bs, hi⟩ := hrun.inv (heapInv_init h0 hm)
  exact hi.safe

/-! ## A heap of one page -/

/-- The memory around the heap: the `struct page` behind it names one frame. -/
def smallMem : Mem := Mem.store64 (fun _ => 0) 0x11000 1

/-- The heap itself. -/
def smallHeap : Heap := initCustomAlloc 4096 0x10000 smallMem

theorem smallHeap_mapped : HeapMapped 4096 0x10000 smallMem :=
  ⟨by decide, by decide, by decide +kernel⟩

/-- The first 32 bytes of the root block are handed out. -/
def smallHeapUsed : Heap := { smallHeap with mem := splitBlock smallHeap.mem 0x10010 32 }

theorem smallHeap_bounds : smallHeap.heapStart = 0x10010 ∧ smallHeap.heapSize = 4096 ∧ smallHeap.limit = 0x12000 := by
  decide +kernel

/-- A header of the small heap is mapped. -/
theorem smallHeap_touch {mem : Mem} {a : Nat} (h1 : 0x10000 ≤ a) (h2 : a + 16 ≤ 0x12000) :
    Heap.touch { smallHeap with mem } a = .ok () := by
  obtain ⟨hstart, -, hlimit⟩ := smallHeap_bounds
  rw [touch_eq_ok]
  dsimp only
  rw [hstart, hlimit]
  unfold metaDataSize
  omega

theorem smallHeap_alloc : imallocAlocator 1 smallHeap 16 = .ok (some (0x10020, smallHeapUsed)) := by
  obtain ⟨hstart, hsize, -⟩ := smallHeap_bounds
  have htotal : totalSize 16 = 32 := by decide +kernel
  have hroot : blockSize smallHeap.mem 0x10010 = 4080 := by decide +kernel
  have hfree : allocated smallHeap.mem 0x10010 = false := by decide +kernel
  have hadd : add64 0x10010 4080 < add64 0x10010 4096 := by decide
  have hnext : add64 0x10010 32 = 0x10030 := by decide
  have hpayload : add64 0x10010 metaDataSize = 0x10020 := by decide
  have ht₁ : smallHeap.touch 0x10010 = .ok () := smallHeap_touch (by decide) (by decide)
  have ht₂ : smallHeap.touch 0x10030 = .ok () := smallHeap_touch (by decide) (by decide)
  unfold imallocAlocator imallocScan
  rw [htotal, hstart, ht₁, hroot, hfree, hsize, hpayload, hnext, ht₂]
  dsimp only [bind, Except.bind]
  rw [if_pos hadd, if_neg (by decide), if_pos (by decide)]
  rfl

theorem smallHeap_step : HeapStep ⟨smallHeap, []⟩ (.alloc 16) ⟨smallHeapUsed, [(0x10020, 16)]⟩ :=
  .alloc 1 (by decide) smallHeap_alloc

/-- The run after an allocation. -/
def allocOnce (r : HeapRun) (size : Nat) : HeapRun :=
  match imallocAlocator 4 r.heap size with
  | .ok (some (p, h)) => ⟨h, (p, size) :: r.live⟩
  | _ => r

theorem allocOnce_step {r : HeapRun} {size : Nat} (hsize : size < 2 ^ 64) (h : (allocOnce r size).live ≠ r.live) :
    HeapStep r (.alloc size) (allocOnce r size) := by
  unfold allocOnce at h ⊢
  split at h
  · next p h' heq => exact .alloc 4 hsize heq
  · exact absurd rfl h

/-- The run after a block is given back. -/
def freeOnce (r : HeapRun) (b : Nat × Nat) : HeapRun :=
  match heapFree r.heap b.1 with
  | .ok h => ⟨h, r.live.erase b⟩
  | .error _ => r

theorem freeOnce_step {r : HeapRun} {b : Nat × Nat} (hb : b ∈ r.live) (h : (freeOnce r b).live ≠ r.live) :
    HeapStep r (.free b.1) (freeOnce r b) := by
  unfold freeOnce at h ⊢
  split at h
  · next h' heq => exact .free hb heq
  · exact absurd rfl h

/-- Three blocks of 16 bytes. -/
def threeBlocks : HeapRun := allocOnce (allocOnce (allocOnce ⟨smallHeap, []⟩ 16) 16) 16

/-- The one in the middle is given back. -/
def middleFreed : HeapRun := freeOnce threeBlocks (0x10040, 16)

theorem middleFreed_run : PlainRun ⟨smallHeap, []⟩ middleFreed := by
  have h₁ : PlainRun ⟨smallHeap, []⟩ (allocOnce ⟨smallHeap, []⟩ 16) :=
    .step .refl (allocOnce_step (by decide) (by decide +kernel)) (show 16 + 31 < 2 ^ 64 by decide)
  have h₂ : PlainRun ⟨smallHeap, []⟩ (allocOnce (allocOnce ⟨smallHeap, []⟩ 16) 16) :=
    .step h₁ (allocOnce_step (by decide) (by decide +kernel)) (show 16 + 31 < 2 ^ 64 by decide)
  have h₃ : PlainRun ⟨smallHeap, []⟩ threeBlocks :=
    .step h₂ (allocOnce_step (by decide) (by decide +kernel)) (show 16 + 31 < 2 ^ 64 by decide)
  refine .step h₃ (freeOnce_step (by decide +kernel) (by decide +kernel)) ?_
  unfold HeapOp.Plain
  decide +kernel

theorem heap_safe_of_plain_smallHeap : middleFreed.live = [(0x10060, 16), (0x10020, 16)] ∧
    HeapSafe 0x10010 (0x10010 + 4080) middleFreed :=
  ⟨by decide +kernel, heap_safe_of_plain (by decide) smallHeap_mapped middleFreed_run⟩

/-- Allocating 16 bytes of a one-page heap and giving them back leaves a root block of 4096 bytes. -/
theorem heap_merge_breaks_tiling : ∃ r, HeapStep ⟨smallHeapUsed, [(0x10020, 16)]⟩ (.free 0x10020) r ∧
    HeapStep ⟨smallHeap, []⟩ (.alloc 16) ⟨smallHeapUsed, [(0x10020, 16)]⟩ ∧
    smallHeap = initCustomAlloc 4096 0x10000 smallMem ∧ HeapMapped 4096 0x10000 smallMem ∧
      blockSize r.heap.mem 0x10010 = 4096 ∧ ¬HeapSafe 0x10010 (0x10010 + 4080) r := by
  have hheader : blockSize smallHeapUsed.mem 0x10010 = 32 := by decide +kernel
  have hprev : prevBlockData smallHeapUsed.mem 0x10010 = 0 := by decide +kernel
  have hused : allocated smallHeapUsed.mem 0x10010 = true := by decide +kernel
  have hnext : allocated smallHeapUsed.mem 0x10030 = false := by decide +kernel
  have hnextSize : blockSize smallHeapUsed.mem 0x10030 = 4048 := by decide +kernel
  obtain ⟨m, hm⟩ : ∃ m, m = Memory.setAllocated (setBlockSize smallHeapUsed.mem 0x10010 4096) 0x10010 false := ⟨_, rfl⟩
  have hfree : heapFree smallHeapUsed 0x10020 = .ok { smallHeapUsed with mem := m } := by
    have hsub : sub64 0x10020 metaDataSize = 0x10010 := by decide
    have hadd : add64 0x10010 32 = 0x10030 := by decide
    have hsub' : sub64 0x10010 0 = 0x10010 := by decide
    have hmerged : 32 + add64 4048 metaDataSize = 4096 := by decide
    have ht₁ : smallHeapUsed.touch 0x10010 = .ok () := smallHeap_touch (by decide) (by decide)
    have ht₂ : smallHeapUsed.touch 0x10030 = .ok () := smallHeap_touch (by decide) (by decide)
    unfold heapFree
    simp only [hsub, hheader, hprev, hadd, hsub', hused, ht₁, ht₂, bind, Except.bind, Bool.not_true, Bool.false_eq_true,
      if_false, hnext, Bool.not_false, if_true, hnextSize, hmerged, ← hm]
    rfl
  have hsize : blockSize m 0x10010 = 4096 := by
    rw [hm, blockSize_setAllocated, blockSize_setBlockSize _ _ (by decide)]
  have hstep : HeapStep ⟨smallHeapUsed, [(0x10020, 16)]⟩ (.free 0x10020) ⟨{ smallHeapUsed with mem := m }, []⟩ := by
    have h := @HeapStep.free ⟨smallHeapUsed, [(0x10020, 16)]⟩ _ 16 _ (List.mem_singleton_self _) hfree
    rwa [List.erase_cons_head] at h
  refine ⟨_, hstep, smallHeap_step, rfl, smallHeap_mapped, hsize, fun h => ?_⟩
  obtain ⟨bs, ht⟩ := h.tiles
  cases bs with
  | nil => exact absurd (show 0x10010 = 0x10010 + 4080 from ht) (by decide)
  | cons b bs =>
    obtain ⟨-, -, ht⟩ := ht
    have hle : 0x10010 + blockSize m 0x10010 ≤ 0x10010 + 4080 := ht.le
    rw [hsize] at hle
    omega

end Icarus.Memory
