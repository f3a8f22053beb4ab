/-
`alloc_init` and `init_custom_alloc` (alloc.c): the pages of the heap's window, of which the second shows the list of
frames itself and the first a frame of its own, and the root block in them.
-/
import Icarus.Alloc.Growth
import Icarus.Memory.HeapSafety
import Icarus.Memory.PageCalls

namespace Icarus.Alloc

open Icarus.Base Icarus.Memory Icarus.Processes

/-! ## The code -/

/-- Writes `n` bytes of one page of the address space. -/
def storeVirt (m : Mem) (cr3 va n : Nat) (v : BitVec (8 * n)) : Except Fault Mem := do
  let pa ← physOf m cr3 va
  return m.store pa n v

/-- `page_addr[0]` of the list that `ialloc_frames` returned; `FRAME_ALLOC_FAILED` is not checked for. -/
def firstAddr (m : Mem) (cr3 : Nat) : Option Nat → Except Fault Nat
  | some info => .ok (pageAddr m info 0)
  | none => do
    let w ← loadVirt m cr3 8 (add64 frameAllocFailed 16)
    return w.toNat

/-- The loop of `init_custom_alloc` over the last pages, from page `i` on, with the list of frames in the page at `st`;
false when `page_in` failed. -/
def mapWindow (cr3 heapStart st : Nat) : (remaining i : Nat) → Mem → MemMap → Except Fault (Bool × Mem × MemMap)
  | 0, _, m, mmap => .ok (true, m, mmap)
  | remaining + 1, i, m, mmap => do
    let frame ← loadVirt m cr3 8 (add64 st (16 + 8 * (i - 1)))
    let (r, m, mmap) := pageIn (iallocKframe · 1) cr3 (add64 heapStart (mul64 i defaultPageSize)) frame.toNat
      defaultPageSize writeable m mmap
    if r ≠ 0 then return (false, m, mmap)
    mapWindow cr3 heapStart st remaining (i + 1) m mmap

/-- The end of `init_custom_alloc`: the allocator and the root header. -/
def writeRoot (cr3 initialSize heapStart : Nat) (m : Mem) : Except Fault Mem := do
  let header := add64 heapStart 16
  let m ← storeVirt m cr3 heapStart 8 (BitVec.ofNat 64 header)
  let m ← storeVirt m cr3 (add64 heapStart 8) 8 (BitVec.ofNat 64 initialSize)
  let root ← physOf m cr3 header
  let m := setAllocated m root false
  let m := setBlockSize m root (sub64 initialSize 16)
  return setPrevBlockData m root 0

/-- `init_custom_alloc`; nothing stands for `NULL`. -/
def initCustomAlloc (cr3 initialSize heapStart : Nat) (infoPage : Option Nat) (m : Mem) (mmap : MemMap) :
    Except Fault (Option Nat × Mem × MemMap) := do
  let heapStart := alignDown heapStart defaultPageSize
  let st := add64 heapStart 0x1000
  let first ← firstAddr m cr3 infoPage
  let (r, m, mmap) := pageIn (iallocKframe · 1) cr3 st first defaultPageSize writeable m mmap
  if r ≠ 0 then return (none, m, mmap)
  let pages := alignUp initialSize defaultPageSize / defaultPageSize
  let initialSize := mul64 pages defaultPageSize
  let (own, m, mmap) ← iallocFrames 1 0 m mmap
  let physAllocator ← firstAddr m cr3 own
  let (r, m, mmap) := pageIn (iallocKframe · 1) cr3 heapStart physAllocator defaultPageSize writeable m mmap
  if r ≠ 0 then return (none, m, mmap)
  let (mapped, m, mmap) ← mapWindow cr3 heapStart st (pages - 2) 2 m mmap
  if mapped = false then return (none, m, mmap)
  let m ← writeRoot cr3 initialSize heapStart m
  return (some heapStart, m, mmap)

/-- `alloc_init`. -/
def allocInit (cr3 initialSize heapStart : Nat) (m : Mem) (mmap : MemMap) : Except Fault (Option Nat × Mem × MemMap) := do
  let (infoPage, m, mmap) ← iallocFrames (alignUp initialSize defaultPageSize / defaultPageSize) 0 m mmap
  initCustomAlloc cr3 initialSize heapStart infoPage m mmap

/-! ## Bytes behind a page -/

section
variable {m m' : Mem} {cr3 va f n pa : Nat}

theorem physOf_eq_ok (h : physOf m cr3 va = .ok pa) : translateByte m cr3 va = some pa := by
  unfold physOf at h
  split_ifs at h
  cases ht : translateByte m cr3 va with
  | none =>
    rw [ht] at h
    cases h
  | some pa' =>
    rw [ht] at h
    cases h
    rfl

theorem physOf_page (h : translate m cr3 va = some f) (hpa : physOf m cr3 va = .ok pa) : pa = f + va % 4096 := by
  have hbyte := physOf_eq_ok hpa
  rw [translateByte_of_translate h] at hbyte
  exact (Option.some.inj hbyte).symm

/-- Bytes of one page are read from its frame. -/
theorem loadVirt_page {w : BitVec (8 * n)} (hend : va % 4096 + n ≤ 4096) (h64 : va < 2 ^ 64)
    (h : translate m cr3 va = some f) (hload : loadVirt m cr3 n va = .ok w) : w = m.load (f + va % 4096) n := by
  induction n generalizing va with
  | zero =>
    cases hload
    rfl
  | succ n ih =>
    unfold loadVirt at hload
    obtain ⟨pa, hpa, hload⟩ := bind_eq_ok.1 hload
    obtain ⟨rest, hrest, hload⟩ := bind_eq_ok.1 hload
    cases hload
    obtain rfl := physOf_page h hpa
    by_cases hn : n = 0
    · subst hn
      cases hrest
      rfl
    · have hpage : pageOf (va + 1) = pageOf va := by
        unfold pageOf vaPrefix
        omega
      rw [add64_of_lt (by omega)] at hrest
      have hnext := ih (by omega) (by omega) (by rw [translate_of_page hpage, h]) hrest
      rw [hnext, show (va + 1) % 4096 = va % 4096 + 1 by omega, ← Nat.add_assoc]
      rfl

theorem storeVirt_page {v : BitVec (8 * n)} (h : translate m cr3 va = some f)
    (hstore : storeVirt m cr3 va n v = .ok m') : m' = m.store (f + va % 4096) n v := by
  obtain ⟨pa, hpa, hstore⟩ := bind_eq_ok.1 hstore
  cases hstore
  rw [physOf_page h hpa]

end

/-! ## Lists -/

section
variable {T : Tables} {m m' : Mem} {mmap mmap' : MemMap} {count info : Nat}

/-- A list of frames that is returned was made of free frames, and nothing else has changed. -/
theorem iallocFrames_fill (hok : memMapSource.Ok mmap)
    (he : iallocFrames count 0 m mmap = .ok (some info, m', mmap')) :
    (∀ a, a / 4096 * 4096 ∉ mmap.free → m' a = m a) ∧ memMapSource.Ok mmap' ∧ Takes m' info 0 (frameCount count) mmap mmap' ∧
      pageAddr m' info 0 = info ∧ ListOf m' info count := by
  have ht : pageTypeToSize 0 = defaultPageSize := by decide
  obtain ⟨-, htakes, hnth⟩ := iallocFrames_takes ht hok.1 he
  rcases @iallocFrames_spec _ m mmap ht hok count with ⟨r', m₁, mmap₁, he', hlisting⟩ | ⟨-, -, he'⟩
  · rw [he] at he'
    cases he'
    cases hlisting with
    | listed _ hlisted _ hafter =>
      refine ⟨fun a => hlisted.fill hok, ?_, htakes, ?_, hlisted.list⟩
      · rw [hafter]
        exact memMapSource.ok_after hok _
      · rw [hnth 0 (Nat.le_max_left 1 count)]
        exact hlisted.first.1
  · rw [he] at he'
    cases he'

/-- One frame is missing, and the call faults, or it is there. -/
theorem iallocFrames_one_ne_none (hok : memMapSource.Ok mmap) : iallocFrames 1 0 m mmap ≠ .ok (none, m', mmap') := by
  have ht : pageTypeToSize 0 = defaultPageSize := by decide
  intro he
  rcases @iallocFrames_spec _ m mmap ht hok 1 with ⟨r', m₁, mmap₁, he', hlisting⟩ | ⟨-, -, he'⟩
  · rw [he] at he'
    cases he'
    cases hlisting with
    | refused hmany => omega
    | missing _ hlisted hserves =>
      refine hserves ⟨?_, trivial⟩
      rw [hlisted.first.1]
      exact hlisted.first.2
  · rw [he] at he'
    cases he'

/-- Writing to free frames leaves all others alone. -/
theorem spares_of_fill (hsub : mmap'.free ⊆ mmap.free) (hfill : ∀ a, a / 4096 * 4096 ∉ mmap.free → m' a = m a) :
    Spares memMapSource T m mmap T m' mmap' := by
  intro x h1 h2
  refine ⟨h1, fun hin => h2 (hsub hin), ?_⟩
  rintro a rfl
  exact hfill a h2

end

/-! ## The root -/

/-- The allocator at `a`, of a heap of `size` bytes at `start`, and the one block behind it. -/
structure RootAt (m : Mem) (a start size : Nat) : Prop where
  heapStart : (m.load64 a).toNat = start + 16
  heapSize : (m.load64 (a + 8)).toNat = size
  allocated : allocated m (a + 16) = false
  blockSize : blockSize m (a + 16) = size - 16
  prev : prevBlockData m (a + 16) = 0

/-- It is found in another memory that shows the same bytes elsewhere. -/
theorem RootAt.shift {m m' : Mem} {a b start size : Nat} (h : RootAt m a start size)
    (hm : ∀ x < 32, m' (b + x) = m (a + x)) : RootAt m' b start size := by
  have hload : ∀ k, k + 8 ≤ 32 → m'.load64 (b + k) = m.load64 (a + k) := fun k hk =>
    Mem.load_shift fun x hx => by rw [Nat.add_assoc, Nat.add_assoc, hm _ (by omega)]
  obtain ⟨h1, h2, h3, h4, h5⟩ := h
  unfold Memory.allocated at h3
  unfold Memory.blockSize at h4
  unfold prevBlockData at h5
  rw [Nat.add_assoc] at h5
  refine ⟨?_, ?_, ?_, ?_, ?_⟩
  · rw [← h1]
    exact congrArg BitVec.toNat (hload 0 (by decide))
  · rw [hload 8 (by decide), h2]
  · unfold Memory.allocated
    rw [hload 16 (by decide), h3]
  · unfold Memory.blockSize
    rw [hload 16 (by decide), h4]
  · unfold prevBlockData
    rw [Nat.add_assoc, hload (16 + 8) (by decide), h5]

/-! ## The window -/

/-- `pages` pages from `start` on. -/
structure WindowAt (start pages : Nat) : Prop where
  aligned : start % 4096 = 0
  few : pages ≤ 510
  lt : start + pages * 4096 ≤ 2 ^ 64

/-- The frames of the window are frames, and different ones. -/
structure WindowFrames (frame : Nat → Nat) (pages : Nat) : Prop where
  aligned : ∀ j < pages, frame j % 4096 = 0
  low : ∀ j < pages, frame j < 2 ^ 31
  distinct : ∀ i < pages, ∀ j < pages, frame i = frame j → i = j

/-- The pages in `done` were mapped to their frames; no frame of the window is a table or free, and the list of as many
frames in that of page 1 names those of the pages behind it. -/
structure WindowInv (cr3 start pages : Nat) (frame : Nat → Nat) (m₀ : Mem) (done : Set Nat) (map : PageMap) (T : Tables)
    (m : Mem) (mmap : MemMap) : Prop where
  calls : PageCalls memMapSource cr3 m₀ map T m mmap
  mapped : ∀ j < pages, j ∈ done → map (pageOf (start + j * 4096)) = some ⟨start + j * 4096, frame j, writeable⟩
  apart : ∀ j < pages, T.level (frame j) = 0 ∧ frame j ∉ mmap.free
  listed : ∀ j, 2 ≤ j → j < pages → pageAddr m (frame 1) (j - 1) = frame j
  list : ListOf m (frame 1) pages

section
variable {cr3 start pages i j : Nat} {frame : Nat → Nat} {m₀ m m' : Mem} {done : Set Nat} {map : PageMap} {T T' : Tables}
variable {mmap mmap' : MemMap}

/-- Two pages of the window are different pages. -/
theorem WindowAt.pageOf_ne (hw : WindowAt start pages) (hi : i < pages) (hj : j < pages) (hne : i ≠ j) :
    pageOf (start + i * 4096) ≠ pageOf (start + j * 4096) := by
  have haligned := hw.aligned
  have hfew := hw.few
  unfold pageOf vaPrefix
  omega

/-- The page of a byte of the window. -/
theorem WindowAt.pageOf_byte (hw : WindowAt start pages) (k : Nat) :
    pageOf (start + k) = pageOf (start + k / 4096 * 4096) := by
  have haligned := hw.aligned
  unfold pageOf vaPrefix
  omega

/-- The list lies in the frame of page 1, and stays as it is where that is left alone. -/
theorem listed_congr (hf : WindowFrames frame pages) (h1 : 1 < pages) (hfew : pages ≤ 510)
    (hsame : ∀ a, a / 4096 * 4096 = frame 1 → m' a = m a)
    (h : ∀ j, 2 ≤ j → j < pages → pageAddr m (frame 1) (j - 1) = frame j) :
    ∀ j, 2 ≤ j → j < pages → pageAddr m' (frame 1) (j - 1) = frame j := by
  intro j h2 hj
  have haligned := hf.aligned 1 h1
  rw [← h j h2 hj]
  exact congrArg BitVec.toNat (Mem.load_congr fun a h3 h4 => hsame a (by omega))

/-- A page that was mapped shows its frame. -/
theorem WindowInv.translate (h : WindowInv cr3 start pages frame m₀ done map T m mmap) (hw : WindowAt start pages)
    (hf : WindowFrames frame pages) {k : Nat} (hk : k < pages * 4096) (hdone : k / 4096 ∈ done) :
    Memory.translate m cr3 (start + k) = some (frame (k / 4096)) := by
  have hpage : k / 4096 < pages := by omega
  have hmap := h.mapped _ hpage hdone
  rw [← hw.pageOf_byte] at hmap
  exact h.calls.translate_mapped hmap (hf.aligned _ hpage) (hf.low _ hpage)

/-- One more page, unless `page_in` fails. -/
theorem WindowInv.page (h : WindowInv cr3 start pages frame m₀ done map T m mmap) (hw : WindowAt start pages)
    (hf : WindowFrames frame pages) (hlarge : ∀ j < pages, NoLarger 0 m₀ 4 cr3 (start + j * 4096)) (hi : i < pages)
    (h1 : 1 < pages) :
    ∃ r m' mmap', pageIn (iallocKframe · 1) cr3 (start + i * 4096) (frame i) defaultPageSize writeable m mmap =
        (r, m', mmap') ∧
          (r = 0 → ∃ map' T', WindowInv cr3 start pages frame m₀ (insert i done) map' T' m' mmap') := by
  obtain ⟨r, m', mmap', T', he, hspares, hres⟩ :=
    h.calls.page ⟨start + i * 4096, frame i, writeable⟩ (hlarge i hi)
  refine ⟨r, m', mmap', he, fun hr => ?_⟩
  rcases hres with ⟨rfl, -⟩ | ⟨-, hcalls⟩
  · exact absurd hr (by decide)
  · refine ⟨_, T', hcalls, fun j hj hdone => ?_, fun j hj => ?_, ?_, ?_⟩
    · by_cases hij : j = i
      · subst hij
        exact Function.update_self ..
      · rw [Function.update_of_ne (hw.pageOf_ne hj hi hij)]
        exact h.mapped j hj (hdone.resolve_left hij)
    · obtain ⟨hlevel, hfree, -⟩ := hspares _ (h.apart j hj).1 (h.apart j hj).2
      exact ⟨hlevel, hfree⟩
    · obtain ⟨-, -, hsame⟩ := hspares _ (h.apart 1 h1).1 (h.apart 1 h1).2
      exact listed_congr hf h1 hw.few hsame h.listed
    · obtain ⟨-, -, hsame⟩ := hspares _ (h.apart 1 h1).1 (h.apart 1 h1).2
      exact h.list.congr (hf.aligned 1 h1) hsame

/-- What is written to the first frame of the window. -/
theorem WindowInv.write (h : WindowInv cr3 start pages frame m₀ done map T m mmap) (hw : WindowAt start pages)
    (hf : WindowFrames frame pages) (h1 : 1 < pages) (hm : ∀ a, a / 4096 * 4096 ≠ frame 0 → m' a = m a) :
    WindowInv cr3 start pages frame m₀ done map T m' mmap := by
  have hsame : ∀ a, a / 4096 * 4096 = frame 1 → m' a = m a := by
    intro a ha
    refine hm a fun h0 => ?_
    exact absurd (hf.distinct 0 (by omega) 1 h1 (h0.symm.trans ha)) (by decide)
  refine ⟨h.calls.write h.calls.built.apart fun a ha => ?_, h.mapped, h.apart, listed_congr hf h1 hw.few hsame h.listed,
    h.list.congr (hf.aligned 1 h1) hsame⟩
  refine hm a fun h0 => ha ?_
  rw [h0]
  exact (h.apart 0 (by omega)).1

/-- Every further page is mapped to the frame that the list, in page 1, names for it. -/
theorem mapWindow_inv (hw : WindowAt start pages) (hf : WindowFrames frame pages) (h1 : 1 < pages)
    (hlarge : ∀ j < pages, NoLarger 0 m₀ 4 cr3 (start + j * 4096)) :
    ∀ (remaining i : Nat) {m : Mem} {mmap : MemMap} {map : PageMap} {T : Tables}, 2 ≤ i → i + remaining = pages →
      WindowInv cr3 start pages frame m₀ {j | j < i} map T m mmap →
        mapWindow cr3 start (start + 4096) remaining i m mmap = .ok (true, m', mmap') →
          ∃ map' T', WindowInv cr3 start pages frame m₀ {j | j < pages} map' T' m' mmap'
  | 0, i, m, mmap, map, T, _, hend, h, hcall => by
    cases hcall
    obtain rfl : i = pages := hend
    exact ⟨map, T, h⟩
  | remaining + 1, i, m, mmap, map, T, h2, hend, h, hcall => by
    have hi : i < pages := by omega
    have hfew := hw.few
    have hlt := hw.lt
    have haligned := hw.aligned
    unfold mapWindow at hcall
    obtain ⟨w, hload, hcall⟩ := bind_eq_ok.1 hcall
    -- the entry is read through the page that shows the list
    have hentry : w.toNat = frame i := by
      have hpage := h.translate hw hf (show 4096 + (16 + 8 * (i - 1)) < pages * 4096 by omega)
        (show (4096 + (16 + 8 * (i - 1))) / 4096 < i by omega)
      rw [show (4096 + (16 + 8 * (i - 1))) / 4096 = 1 by omega, ← Nat.add_assoc] at hpage
      rw [add64_of_lt (by omega)] at hload
      rw [loadVirt_page (by omega) (by omega) hpage hload, ← h.listed i h2 hi,
        show (start + 4096 + (16 + 8 * (i - 1))) % 4096 = 16 + 8 * (i - 1) by omega, ← Nat.add_assoc]
      rfl
    have hva : add64 start (mul64 i defaultPageSize) = start + i * 4096 := by
      unfold defaultPageSize
      rw [mul64_of_lt (by omega), add64_of_lt (by omega)]
    obtain ⟨r, m₁, mmap₁, he, hnext⟩ := h.page hw hf hlarge hi h1
    rw [hva, hentry, he] at hcall
    dsimp only at hcall
    split_ifs at hcall with hr
    · cases hcall
    · obtain ⟨map', T', h'⟩ := hnext (not_not.1 hr)
      have hdone : insert i {j | j < i} = {j | j < i + 1} := by
        ext j
        simp only [Set.mem_insert_iff, Set.mem_ofPred_eq]
        omega
      rw [hdone] at h'
      exact mapWindow_inv hw hf h1 hlarge remaining (i + 1) (by omega) (by omega) h' hcall

/-- A byte of the first page. -/
theorem WindowInv.translate_first (h : WindowInv cr3 start pages frame m₀ done map T m mmap) (hw : WindowAt start pages)
    (hf : WindowFrames frame pages) (h1 : 1 < pages) (hdone : 0 ∈ done) {k : Nat} (hk : k < 4096) :
    Memory.translate m cr3 (start + k) = some (frame 0) ∧ (start + k) % 4096 = k := by
  have hzero : k / 4096 = 0 := by omega
  have hpage := h.translate hw hf (show k < pages * 4096 by omega) (by rwa [hzero])
  rw [hzero] at hpage
  have haligned := hw.aligned
  exact ⟨hpage, by omega⟩

/-- The allocator and the root header lie in the first frame. -/
theorem WindowInv.writeRoot {size : Nat} (h : WindowInv cr3 start pages frame m₀ done map T m mmap)
    (hw : WindowAt start pages) (hf : WindowFrames frame pages) (h1 : 1 < pages) (hdone : 0 ∈ done)
    (h16 : 16 ≤ size) (hsize : size < 2 ^ 63) (hcall : writeRoot cr3 size start m = .ok m') :
    WindowInv cr3 start pages frame m₀ done map T m' mmap ∧ RootAt m' (frame 0) start size := by
  have hlt := hw.lt
  have haligned := hf.aligned 0 (by omega)
  have hhere : ∀ {m : Mem} {off : Nat} {v : BitVec 64}, off + 8 ≤ 4096 → ∀ a, a / 4096 * 4096 ≠ frame 0 →
      m.store64 (frame 0 + off) v a = m a := fun hoff a ha => Mem.store_of_lt (by omega)
  unfold Alloc.writeRoot at hcall
  rw [add64_of_lt (by omega), add64_of_lt (by omega), sub64_of_le h16 (by omega)] at hcall
  -- the two fields of the allocator
  obtain ⟨m₁, hm₁, hcall⟩ := bind_eq_ok.1 hcall
  obtain ⟨hpage, hoff⟩ := h.translate_first hw hf h1 hdone (show 0 < 4096 by decide)
  obtain rfl := storeVirt_page hpage hm₁
  rw [hoff] at hcall
  have h₁ := h.write hw hf h1 (hhere (v := BitVec.ofNat 64 (start + 16)) (show 0 + 8 ≤ 4096 by decide))
  obtain ⟨m₂, hm₂, hcall⟩ := bind_eq_ok.1 hcall
  obtain ⟨hpage, hoff⟩ := h₁.translate_first hw hf h1 hdone (show 8 < 4096 by decide)
  obtain rfl := storeVirt_page hpage hm₂
  rw [hoff] at hcall
  have h₂ := h₁.write hw hf h1 (hhere (v := BitVec.ofNat 64 size) (show 8 + 8 ≤ 4096 by decide))
  -- the header behind it
  obtain ⟨root, hroot, hcall⟩ := bind_eq_ok.1 hcall
  obtain ⟨hpage, hoff⟩ := h₂.translate_first hw hf h1 hdone (show 16 < 4096 by decide)
  obtain rfl := physOf_page hpage hroot
  rw [hoff] at hcall
  have hcall := Except.ok.inj hcall
  have hfields : SameFields (setBlockSize (setAllocated ((m.store64 (frame 0 + 0) (BitVec.ofNat 64 (start + 16))).store64
      (frame 0 + 8) (BitVec.ofNat 64 size)) (frame 0 + 16) false) (frame 0 + 16) (size - 16)) m' (frame 0 + 16) := by
    rw [← hcall]
    exact SameFields.refl.setPrevBlockData 0 (by omega)
  -- the words of the allocator lie below it
  have hallocator : ∀ a, a + 8 ≤ frame 0 + 16 → SameFields ((m.store64 (frame 0 + 0) (BitVec.ofNat 64 (start + 16))).store64
      (frame 0 + 8) (BitVec.ofNat 64 size)) m' a := by
    intro a ha
    rw [← hcall]
    exact ((SameFields.refl.setAllocated _ (.inl ha)).setBlockSize _ (.inl ha)).setPrevBlockData _ (by omega)
  refine ⟨h₂.write hw hf h1 fun a ha => ?_, ?_, ?_, ?_, ?_, ?_⟩
  · rw [← hcall]
    unfold setPrevBlockData setBlockSize setAllocated storeFields
    rw [show frame 0 + 16 + 8 = frame 0 + 24 by omega, hhere (by omega) a ha, hhere (by omega) a ha,
      hhere (by omega) a ha]
  · rw [hallocator _ (by omega), Mem.load64_store64_disjoint _ (by omega), Nat.add_zero, Mem.load64_store64_same,
      BitVec.toNat_ofNat, Nat.mod_eq_of_lt (by omega)]
  · rw [hallocator _ (by omega), Mem.load64_store64_same, BitVec.toNat_ofNat, Nat.mod_eq_of_lt (by omega)]
  · rw [hfields.allocated, allocated_setBlockSize, allocated_setAllocated]
  · rw [hfields.blockSize, blockSize_setBlockSize _ _ (by omega)]
  · rw [← hcall]
    unfold prevBlockData setPrevBlockData
    rw [Mem.load64_store64_same]
    rfl

/-! ## The frames of the window -/

/-- The frame of its own that the window starts with, and behind it those of the list at `info`. -/
def framesOf (own info : Nat) (m : Mem) : Nat → Nat
  | 0 => own
  | j + 1 => pageAddr m info j

section
variable {own info count : Nat} {mmap₀ : MemMap}

theorem framesOf_frames (hok : memMapSource.Ok mmap₀) (htakes : Takes m info 0 count mmap₀ mmap)
    (hpages : pages ≤ count + 1) (hown : own ∈ mmap.free) :
    WindowFrames (framesOf own info m) pages ∧ ∀ i < pages, framesOf own info m i ∈ mmap₀.free := by
  have hall : ∀ i < pages, framesOf own info m i ∈ mmap₀.free := by
    intro i hi
    cases i with
    | zero => exact htakes.subset hown
    | succ j => exact (htakes.listed (by omega)).1
  have hown_ne : ∀ j < count, own ≠ pageAddr m info j := by
    rintro j hj rfl
    exact (htakes.listed hj).2 hown
  refine ⟨⟨fun j hj => memMapSource.aligned _ _ hok (hall j hj), fun j hj => memMapSource.low _ _ hok (hall j hj), ?_⟩,
    hall⟩
  intro i hi j hj heq
  cases i with
  | zero =>
    cases j with
    | zero => rfl
    | succ j => exact absurd heq (hown_ne j (by omega))
  | succ i =>
    cases j with
    | zero => exact absurd heq.symm (hown_ne i (by omega))
    | succ j =>
      have honce := htakes.once i j (by omega) (by omega)
      rw [Nat.zero_add, Nat.zero_add] at honce
      exact congrArg (· + 1) (honce heq)

/-- With the list in page 1 and a frame for page 0 the frames of the window are fixed. -/
theorem windowInv_start {m₁ m₂ m₃ : Mem} {mmap₁ mmap₂ mmap₃ : MemMap} (hT : Built memMapSource cr3 T m mmap)
    (hw : WindowAt start pages) (h1 : 1 < pages) (hlarge : NoLarger 0 m 4 cr3 (start + 1 * 4096))
    (hlist : iallocFrames pages 0 m mmap = .ok (some info, m₁, mmap₁))
    (hpage : pageIn (iallocKframe · 1) cr3 (start + 1 * 4096) info defaultPageSize writeable m₁ mmap₁ = (0, m₂, mmap₂))
    {r : Option Nat} (hown : iallocFrames 1 0 m₂ mmap₂ = .ok (r, m₃, mmap₃)) :
    ∃ own, r = some own ∧ pageAddr m₃ own 0 = own ∧ WindowFrames (framesOf own info m₁) pages ∧
      (∀ i < pages, framesOf own info m₁ i ∈ mmap.free) ∧
        ∃ map T', WindowInv cr3 start pages (framesOf own info m₁) m {1} map T' m₃ mmap₃ := by
  obtain ⟨hfill, hok₁, htakes, hinfo, hlist₁⟩ := iallocFrames_fill hT.apart.ok hlist
  rw [show frameCount pages = pages from Nat.max_eq_right (by omega)] at htakes
  have hcalls := (PageCalls.start hT).fill ⟨hok₁, fun f hf => hT.apart.free f (htakes.subset hf)⟩ hfill
  -- page 1 shows the list
  obtain ⟨r', m', mmap', T', he, hspares, hres⟩ := hcalls.page ⟨start + 1 * 4096, info, writeable⟩ hlarge
  cases hpage.symm.trans he
  have hfree₂ := @pageIn_free _ memMapSource cr3 _ info writeable _ _ _ hcalls.built (hcalls.noLarger hlarge)
  rw [show pageIn memMapSource.alloc cr3 (start + 1 * 4096) info defaultPageSize writeable m₁ mmap₁ = (0, m₂, mmap₂)
    from hpage] at hfree₂
  obtain ⟨-, hcalls₂⟩ := hres.resolve_left fun h => absurd h.1 (by decide)
  -- page 0 gets a frame that is still free
  obtain ⟨own, rfl⟩ : ∃ own, r = some own := by
    cases r with
    | none => exact absurd hown (iallocFrames_one_ne_none hcalls₂.built.apart.ok)
    | some own => exact ⟨own, rfl⟩
  obtain ⟨hfill₃, hok₃, htakes₃, hown₀, -⟩ := iallocFrames_fill hcalls₂.built.apart.ok hown
  obtain ⟨hown_free, hown_taken⟩ := htakes₃.listed (show 0 < frameCount 1 by decide)
  rw [hown₀] at hown_free hown_taken
  have hcalls₃ := hcalls₂.fill ⟨hok₃, fun f hf => hcalls₂.built.apart.free f (htakes₃.subset hf)⟩ hfill₃
  have hspares₃ := hspares.trans (spares_of_fill htakes₃.subset hfill₃)
  obtain ⟨hframes, hall⟩ := @framesOf_frames pages m₁ mmap₁ own info pages mmap hT.apart.ok htakes (by omega)
    (hfree₂ hown_free)
  have hlisted : ∀ j < pages, T.level (pageAddr m₁ info j) = 0 ∧ pageAddr m₁ info j ∉ mmap₁.free := by
    intro j hj
    obtain ⟨hin, hnot⟩ := htakes.listed hj
    exact ⟨hT.apart.free _ hin, hnot⟩
  -- the list stays as it is, in a frame that is taken
  obtain ⟨hlevel₀, hnot₀⟩ := hlisted 0 (by omega)
  obtain ⟨-, -, hsame⟩ := hspares₃ _ hlevel₀ hnot₀
  have hlist₁ : ListOf m₁ (framesOf own info m₁ 1) pages := by
    rw [show framesOf own info m₁ 1 = info from hinfo]
    exact hlist₁
  refine ⟨own, rfl, hown₀, hframes, hall, _, T', hcalls₃, ?_, ?_, ?_,
    hlist₁.congr (hframes.aligned 1 h1) hsame⟩
  · rintro j - rfl
    rw [show framesOf own info m₁ 1 = info from hinfo]
    exact Function.update_self ..
  · intro j hj
    cases j with
    | zero => exact ⟨hcalls₂.built.apart.free own hown_free, hown_taken⟩
    | succ j =>
      obtain ⟨hlevel, hnot⟩ := hlisted j (by omega)
      obtain ⟨h2, h3, -⟩ := hspares₃ _ hlevel hnot
      exact ⟨h2, h3⟩
  · refine listed_congr hframes h1 hw.few hsame fun j h2 hj => ?_
    cases j with
    | zero => omega
    | succ j =>
      show pageAddr m₁ (pageAddr m₁ info 0) j = pageAddr m₁ info j
      rw [hinfo]

end

/-! ## The heap -/

/-- The number of pages for that many bytes. -/
def heapPages (initialSize : Nat) : Nat := alignUp initialSize defaultPageSize / defaultPageSize

theorem alignUp_page {size : Nat} (h : size ≤ 510 * 4096) :
    alignUp size defaultPageSize = heapPages size * 4096 ∧ heapPages size = (size + 4095) / 4096 := by
  have hround : alignUp size defaultPageSize = (size + 4095) / 4096 * 4096 := @alignUp_two_pow _ 12 (by decide) (by omega)
  unfold heapPages defaultPageSize at *
  omega

/-- Every page of the window is translated, each to a frame of its own that was free and is not used for a table, and the
root block lies behind the allocator and ends with the window. -/
structure WindowBacked (m : Mem) (cr3 start pages : Nat) (mmap : MemMap) : Prop where
  frames : ∃ frame : Nat → Nat, (∀ k < pages * 4096, translateByte m cr3 (start + k) = some (frame (k / 4096) + k % 4096)) ∧
    (∀ i < pages, ∀ j < pages, frame i = frame j → i = j) ∧
      ∀ i < pages, frame i ∈ mmap.free ∧ ¬LeadsTo m 4 cr3 (frame i)
  root : ∃ own header, translateByte m cr3 start = some own ∧
    translateByte m cr3 (m.load64 own).toNat = some header ∧ allocated m header = false ∧
      (m.load64 own).toNat = start + 16 ∧ start + 16 + blockSize m header = start + pages * 4096

/-- What is read through CR3; a byte that is not mapped counts as 0. -/
def viewOf (m : Mem) (cr3 : Nat) : Mem := fun va => (translateByte m cr3 va).elim 0 m

/-- The heap of the allocator at `start`, whose pages are mapped up to `limit`. -/
def heapAt (m : Mem) (cr3 start limit : Nat) : Heap where
  mem := viewOf m cr3
  heapStart := ((viewOf m cr3).load64 start).toNat
  heapSize := ((viewOf m cr3).load64 (start + 8)).toNat
  limit := limit

/-- The heap that is found in the window is the one `init_custom_alloc` makes of pages that are mapped, and the list of
frames one page behind its start counts them. -/
structure HeapFound (m : Mem) (cr3 start initialSize : Nat) : Prop where
  heap : heapAt m cr3 start (start + heapPages initialSize * 4096) =
    Memory.initCustomAlloc initialSize start (viewOf m cr3)
  mapped : start + initialSize + 8192 < 2 ^ 64 → HeapMapped initialSize start (viewOf m cr3)

section
variable {info heapStart initialSize a : Nat} {m₁ : Mem} {mmap₁ : MemMap}

theorem alignDown_start (haligned : start % 4096 = 0) (h64 : start < 2 ^ 64) : alignDown start defaultPageSize = start := by
  have hround : alignDown start defaultPageSize = start / 4096 * 4096 := @alignDown_two_pow _ 12 h64 (by decide)
  omega

/-- A call that returns a heap has mapped every page of its window. -/
theorem initCustomAlloc_inv (hT : Built memMapSource cr3 T m mmap) (hw : WindowAt start (heapPages initialSize))
    (hsize : 4096 < initialSize) (hmax : initialSize ≤ 510 * 4096)
    (hlarge : ∀ j < heapPages initialSize, NoLarger 0 m 4 cr3 (start + j * 4096))
    (hlist : iallocFrames (heapPages initialSize) 0 m mmap = .ok (some info, m₁, mmap₁))
    (hcall : initCustomAlloc cr3 initialSize start (some info) m₁ mmap₁ = .ok (some a, m', mmap')) :
    ∃ frame map T', WindowFrames frame (heapPages initialSize) ∧
      (∀ i < heapPages initialSize, frame i ∈ mmap.free) ∧
        WindowInv cr3 start (heapPages initialSize) frame m {j | j < heapPages initialSize} map T' m' mmap' ∧
          RootAt m' (frame 0) start (heapPages initialSize * 4096) := by
  obtain ⟨-, hcount⟩ := alignUp_page hmax
  have h1 : 1 < heapPages initialSize := by omega
  have hlt := hw.lt
  have hfew := hw.few
  have haligned : alignDown start defaultPageSize = start := alignDown_start hw.aligned (by omega)
  have hbytes : mul64 (heapPages initialSize) defaultPageSize = heapPages initialSize * 4096 :=
    mul64_of_lt (by unfold defaultPageSize; omega)
  have hst : add64 start 0x1000 = start + 1 * 4096 := add64_of_lt (by omega)
  obtain ⟨-, -, -, hinfo, -⟩ := iallocFrames_fill hT.apart.ok hlist
  unfold initCustomAlloc at hcall
  dsimp only at hcall
  rw [haligned, hst, show alignUp initialSize defaultPageSize / defaultPageSize = heapPages initialSize from rfl, hbytes]
    at hcall
  obtain ⟨first, hfirst, hcall⟩ := bind_eq_ok.1 hcall
  obtain rfl : info = first := hinfo.symm.trans (Except.ok.inj hfirst)
  rcases hpage : pageIn (iallocKframe · 1) cr3 (start + 1 * 4096) info defaultPageSize writeable m₁ mmap₁ with ⟨r, m₂, mmap₂⟩
  rw [hpage] at hcall
  dsimp only at hcall
  split_ifs at hcall with hr
  · cases hcall
  obtain rfl := not_not.1 hr
  obtain ⟨⟨own, m₃, mmap₃⟩, hown, hcall⟩ := bind_eq_ok.1 hcall
  obtain ⟨own, rfl, hown₀, hframes, hall, map, T₃, hinv⟩ := windowInv_start hT hw h1 (hlarge 1 h1) hlist hpage hown
  obtain ⟨physAllocator, hphys, hcall⟩ := bind_eq_ok.1 hcall
  obtain rfl : own = physAllocator := hown₀.symm.trans (Except.ok.inj hphys)
  obtain ⟨r, m₄, mmap₄, hpage₀, hnext⟩ := hinv.page hw hframes hlarge (show 0 < _ by omega) h1
  rw [Nat.zero_mul, Nat.add_zero, show framesOf own info m₁ 0 = own from rfl] at hpage₀
  dsimp only at hcall
  rw [hpage₀] at hcall
  dsimp only at hcall
  split_ifs at hcall with hr₀
  · cases hcall
  obtain ⟨map₄, T₄, hinv₄⟩ := hnext (not_not.1 hr₀)
  obtain ⟨⟨mapped, m₅, mmap₅⟩, hloop, hcall⟩ := bind_eq_ok.1 hcall
  dsimp only at hcall
  split_ifs at hcall with hmapped
  · cases hcall
  obtain rfl : mapped = true := by simpa using hmapped
  -- the loop does the pages behind these two
  have hdone : insert 0 {1} = {j | j < 2} := by
    ext j
    simp only [Set.mem_insert_iff, Set.mem_singleton_iff, Set.mem_ofPred_eq]
    omega
  rw [hdone] at hinv₄
  rw [Nat.one_mul] at hloop
  obtain ⟨map₅, T₅, hinv₅⟩ := mapWindow_inv hw hframes h1 hlarge _ 2 le_rfl (by omega) hinv₄ hloop
  obtain ⟨m₆, hroot, hcall⟩ := bind_eq_ok.1 hcall
  cases hcall
  have hroots := hinv₅.writeRoot hw hframes h1 (show 0 < _ by omega) (by omega) (by omega) hroot
  exact ⟨_, map₅, T₅, hframes, hall, hroots⟩

/-- The same of `alloc_init`, with every byte of the window. -/
theorem allocInit_inv (hT : Built memMapSource cr3 T m mmap) (haligned : heapStart % 4096 = 0)
    (hsize : 4096 < initialSize) (hmax : initialSize ≤ 510 * 4096)
    (hrange : heapStart + heapPages initialSize * 4096 ≤ 2 ^ 64)
    (hunmapped : ∀ k < heapPages initialSize * 4096, Memory.translate m cr3 (heapStart + k) = none)
    (hlist : iallocFrames (heapPages initialSize) 0 m mmap = .ok (some info, m₁, mmap₁))
    (hcall : allocInit cr3 initialSize heapStart m mmap = .ok (some a, m', mmap')) :
    ∃ frame map T', WindowFrames frame (heapPages initialSize) ∧
      (∀ i < heapPages initialSize, frame i ∈ mmap.free) ∧
        WindowInv cr3 heapStart (heapPages initialSize) frame m {j | j < heapPages initialSize} map T' m' mmap' ∧
          RootAt m' (frame 0) heapStart (heapPages initialSize * 4096) ∧
            ∀ k < heapPages initialSize * 4096,
              translateByte m' cr3 (heapStart + k) = some (frame (k / 4096) + k % 4096) := by
  obtain ⟨-, hcount⟩ := alignUp_page hmax
  have hw : WindowAt heapStart (heapPages initialSize) := ⟨haligned, by omega, hrange⟩
  have hlarge : ∀ j < heapPages initialSize, NoLarger 0 m 4 cr3 (heapStart + j * 4096) := by
    intro j hj w hwalk
    have hnone := hunmapped (j * 4096) (by omega)
    unfold Memory.translate at hnone
    rw [hwalk] at hnone
    cases hnone
  obtain ⟨⟨infoPage, m₂, mmap₂⟩, hlist', hcall⟩ := bind_eq_ok.1 hcall
  cases hlist.symm.trans hlist'
  obtain ⟨frame, map, T', hf, hfree, hinv, hroot⟩ := initCustomAlloc_inv hT hw hsize hmax hlarge hlist hcall
  refine ⟨frame, map, T', hf, hfree, hinv, hroot, fun k hk => ?_⟩
  rw [translateByte_of_translate (hinv.translate hw hf hk (show k / 4096 < _ by omega)),
    show (heapStart + k) % 4096 = k % 4096 by omega]

/-- The root that was written is the one `init_custom_alloc` writes. -/
theorem RootAt.heap (h : RootAt (viewOf m cr3) start start (heapPages initialSize * 4096)) (haligned : start % 4096 = 0)
    (hsize : 4096 < initialSize) (hmax : initialSize ≤ 510 * 4096)
    (hrange : start + heapPages initialSize * 4096 ≤ 2 ^ 64) :
    heapAt m cr3 start (start + heapPages initialSize * 4096) =
      Memory.initCustomAlloc initialSize start (viewOf m cr3) := by
  obtain ⟨-, hcount⟩ := alignUp_page hmax
  obtain ⟨hstart, hbytes, hallocated, hblock, hprev⟩ := h
  have hdown : alignDown start 4096 = start := alignDown_start haligned (Nat.lt_of_lt_of_le (by omega) hrange)
  have hpages : alignUp initialSize 4096 / 4096 = heapPages initialSize := rfl
  have hheader : add64 start metaDataSize = start + 16 := add64_of_lt (by unfold metaDataSize; omega)
  have htotal : mul64 (heapPages initialSize) 4096 = heapPages initialSize * 4096 := mul64_of_lt (by omega)
  have hroot : sub64 (heapPages initialSize * 4096) 16 = heapPages initialSize * 4096 - 16 :=
    sub64_of_le (by omega) (by omega)
  -- each field is there already, so writing it changes nothing
  have hfree : setAllocated (viewOf m cr3) (start + 16) false = viewOf m cr3 := by
    have hself := storeFields_self (viewOf m cr3) (start + 16)
    rwa [hallocated] at hself
  have hwhole : setBlockSize (viewOf m cr3) (start + 16) (heapPages initialSize * 4096 - 16) = viewOf m cr3 := by
    have hself := storeFields_self (viewOf m cr3) (start + 16)
    rwa [hblock] at hself
  have hfirst : setPrevBlockData (viewOf m cr3) (start + 16) 0 = viewOf m cr3 := by
    have hself := setPrevBlockData_self (viewOf m cr3) (start + 16)
    rwa [hprev] at hself
  unfold heapAt Memory.initCustomAlloc
  dsimp only
  rw [hstart, hbytes, hdown, hpages, hheader, htotal, hroot, hfree, hwhole, hfirst, Nat.max_eq_left (by omega)]

/-- Every window of 2 to 510 pages for which `alloc_init` returns a heap is backed, page by page, and the heap is found
in it. -/
theorem heap_window_backed (hT : Built memMapSource cr3 T m mmap) (haligned : heapStart % 4096 = 0)
    (hsize : 4096 < initialSize) (hmax : initialSize ≤ 510 * 4096)
    (hrange : heapStart + heapPages initialSize * 4096 ≤ 2 ^ 64)
    (hunmapped : ∀ k < heapPages initialSize * 4096, Memory.translate m cr3 (heapStart + k) = none)
    (hlist : iallocFrames (heapPages initialSize) 0 m mmap = .ok (some info, m₁, mmap₁))
    (hcall : allocInit cr3 initialSize heapStart m mmap = .ok (some a, m', mmap')) :
    WindowBacked m' cr3 heapStart (heapPages initialSize) mmap ∧ HeapFound m' cr3 heapStart initialSize := by
  obtain ⟨-, hcount⟩ := alignUp_page hmax
  obtain ⟨frame, map, T', hf, hfree, hinv, hroot, hbytes⟩ :=
    allocInit_inv hT haligned hsize hmax hrange hunmapped hlist hcall
  -- what the frame of a page holds, as the window shows it
  have hview : ∀ j < heapPages initialSize, ∀ x < 4096,
      viewOf m' cr3 (heapStart + j * 4096 + x) = m' (frame j + x) := by
    intro j hj x hx
    have hbyte := hbytes (j * 4096 + x) (by omega)
    rw [show (j * 4096 + x) / 4096 = j by omega, show (j * 4096 + x) % 4096 = x by omega, ← Nat.add_assoc] at hbyte
    unfold viewOf
    rw [hbyte]
    rfl
  refine ⟨?_, ?_, fun hfits => ⟨hfits, by omega, ?_⟩⟩
  · have hstart := hroot.heapStart
    have hblock := hroot.blockSize
    refine ⟨⟨frame, hbytes, hf.distinct, fun i hi => ⟨hfree i hi, fun hlead => ?_⟩⟩, frame 0, frame 0 + 16, ?_, ?_,
      hroot.allocated, hstart, by omega⟩
    · exact hlead.level_ne hinv.calls.built.wf hinv.calls.built.root (hinv.apart i hi).1
    · have hfirst := hbytes 0 (by omega)
      simpa using hfirst
    · rw [hstart]
      have hheader := hbytes 16 (by omega)
      simpa using hheader
  · refine RootAt.heap ?_ haligned hsize hmax hrange
    refine hroot.shift fun x hx => ?_
    have hfirst := hview 0 (by omega) x (by omega)
    rwa [Nat.zero_mul, Nat.add_zero] at hfirst
  · have hlisted : (viewOf m' cr3).load64 (heapStart + 1 * 4096) = m'.load64 (frame 1) :=
      Mem.load_shift fun x hx => hview 1 (by omega) x (by omega)
    have hpages : (m'.load64 (frame 1)).toNat = heapPages initialSize := hinv.list.count
    have hdown : alignDown heapStart 4096 = heapStart := alignDown_start haligned (by omega)
    rw [hdown, show heapStart + 4096 = heapStart + 1 * 4096 by omega, hlisted]
    refine BitVec.eq_of_toNat_eq ?_
    rw [hpages, BitVec.toNat_ofNat, Nat.mod_eq_of_lt]
    · rfl
    · show heapPages initialSize < 2 ^ 64
      omega

end

end

/-- A window of three pages under a root that is empty. -/
theorem heap_window_backed_threePages : ∃ m' mmap',
    allocInit 0x1000 0x3000 0x400000 (fun _ => 0) sixtyFrames = .ok (some 0x400000, m', mmap') ∧
      WindowBacked m' 0x1000 0x400000 3 sixtyFrames ∧ HeapMapped 0x3000 0x400000 (viewOf m' 0x1000) := by
  have hruns : (okAnd (iallocFrames (heapPages 0x3000) 0 (fun _ => 0) sixtyFrames) (fun r => r.1.isSome) &&
      okAnd (allocInit 0x1000 0x3000 0x400000 (fun _ => 0) sixtyFrames) fun r => r.1 == some 0x400000) = true := by
    decide +kernel
  obtain ⟨hlist, hcall⟩ := Bool.and_eq_true_iff.1 hruns
  obtain ⟨⟨r, m₁, mmap₁⟩, hlist, hsome⟩ := okAnd_eq_true.1 hlist
  obtain ⟨info, rfl⟩ := Option.isSome_iff_exists.1 hsome
  obtain ⟨⟨a, m', mmap'⟩, hcall, ha⟩ := okAnd_eq_true.1 hcall
  obtain rfl : a = some 0x400000 := beq_iff_eq.1 ha
  have hroot : Built memMapSource 0x1000 (.only 0x1000) (fun _ => 0) sixtyFrames :=
    Built.zeroed newKernel_apart.ok (by decide) (fun h => absurd (newKernel_apart.free _ h) (by decide)) fun _ _ =>
      entryAt_zero ..
  obtain ⟨hbacked, hfound⟩ := heap_window_backed hroot (by decide) (by decide) (by decide) (by decide) (fun k _ => by
    unfold Memory.translate
    rw [mmuWalk_zeroed fun _ _ => entryAt_zero ..]
    rfl) hlist hcall
  exact ⟨m', mmap', hcall, hbacked, hfound.mapped (by decide)⟩

end Icarus.Alloc
