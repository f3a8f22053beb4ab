/-
What `Imalloc_alocator` promises on a tiled heap of any shape, and exactly when it keeps that: that the block it returns
is sound, that the links back stay right, and that the first block that fits is found. The scan gives up at the first
free block, reads on behind a heap that is all in use, and forgets the link behind a block it cuts.
-/
import Icarus.Memory.HeapScan

namespace Icarus.Memory

open Icarus.Base Relation

/-! ## Soundness -/

/-- What the caller may rely on. -/
structure SoundAlloc (h : Heap) (bs : List Nat) (size p : Nat) (h' : Heap) : Prop where
  aligned : p % 16 = 0
  inside : ∃ b ∈ bs, allocated h.mem b = false ∧ b + metaDataSize ≤ p ∧ p + size ≤ b + blockSize h.mem b
  room : size + metaDataSize ≤ blockSize h'.mem (sub64 p metaDataSize)
  kept : ∀ b ∈ bs, allocated h.mem b = true → ∀ a, b ≤ a → a < b + blockSize h.mem b → h'.mem a = h.mem a
  range : h'.heapStart = h.heapStart ∧ h'.heapSize = h.heapSize
  tiles : ∃ bs', HeapTiled h' bs'

theorem sub64_add64 {a k : Nat} (ha : a < 2 ^ 64) : sub64 (add64 a k) k = a := by
  unfold sub64 add64 u64
  omega

section
variable {h h' : Heap} {bs : List Nat} {size b p a : Nat}

/-- A free block that is large enough is taken soundly. -/
theorem HeapTiled.sound (ht : HeapTiled h bs) (hsize : size + 31 < 2 ^ 64) (hb : b ∈ bs)
    (hfree : allocated h.mem b = false) (hle : totalSize size ≤ blockSize h.mem b) :
    SoundAlloc h bs size (b + metaDataSize) (h.take (totalSize size) b) := by
  obtain ⟨hal, hfit⟩ := totalSize_spec hsize
  have halign := ht.aligned hb
  have hheader : sub64 (b + metaDataSize) metaDataSize = b := ht.header hb
  unfold metaDataSize at hheader ⊢
  refine ⟨by omega, ⟨b, hb, hfree, le_rfl, by omega⟩, ?_, ?_, ⟨rfl, rfl⟩, ?_⟩
  · unfold metaDataSize
    rw [hheader, (take_self hle).1]
    exact hfit
  · intro c hc hused x h1 h2
    have hne : c ≠ b := by
      rintro rfl
      rw [hfree] at hused
      cases hused
    refine ht.blocks.take_of_outside hb hal hle ?_
    rcases ht.tiled.apart hc hb hne with h3 | h3
    · left; omega
    · right; omega
  · obtain ⟨bs', ht', -⟩ := ht.take hb hal (by omega) hle
    exact ⟨bs', ht'⟩

/-- Every block that is returned is sound just when a heap that is all in use has nothing behind it that serves. -/
theorem imalloc_sound_iff (ht : HeapTiled h bs) (hsize : size + 31 < 2 ^ 64) :
    (∀ fuel p h', imallocAlocator fuel h size = .ok (some (p, h')) → SoundAlloc h bs size p h') ↔
      (h.firstFree bs = none → ¬h.FitsBehind (totalSize size)) := by
  constructor
  · rintro hsound hfull ⟨a, hr, hf⟩
    obtain ⟨fuel, hok⟩ := (ht.served_behind_iff hfull).2 ⟨a, hr, hf, rfl, rfl⟩
    obtain ⟨b, hb, hfree, -⟩ := (hsound _ _ _ hok).inside
    rw [firstFree_eq_none.1 hfull b hb] at hfree
    cases hfree
  · intro hbehind fuel p h' hok
    cases hff : h.firstFree bs with
    | none =>
      obtain ⟨a, hr, hf, -⟩ := (ht.served_behind_iff hff).1 ⟨fuel, hok⟩
      exact absurd ⟨a, hr, hf⟩ (hbehind hff)
    | some b =>
      obtain ⟨hle, rfl, rfl⟩ := (ht.served_iff hff).1 ⟨fuel, hok⟩
      obtain ⟨hb, hfree⟩ := mem_of_firstFree hff
      exact ht.sound hsize hb hfree hle

end

/-! ## Heaps laid out block by block -/

/-- The headers of blocks, in use or free and of the given sizes, one behind the other. -/
def layBlocks : (blocks : List (Bool × Nat)) → (a prev : Nat) → Mem → Mem
  | [], _, _, m => m
  | (used, size) :: blocks, a, prev, m =>
    layBlocks blocks (a + size) size (setPrevBlockData (storeFields m a used size) a prev)

/-- Where they start. -/
def blockStarts : (blocks : List (Bool × Nat)) → (a : Nat) → List Nat
  | [], _ => []
  | (_, size) :: blocks, a => a :: blockStarts blocks (a + size)

/-- A heap of `pages` pages at `base`, with the blocks behind the allocator and `behind` in the quadword behind them. -/
def laidHeap (base pages limit : Nat) (behind : BitVec 64) (blocks : List (Bool × Nat)) : Heap where
  mem := layBlocks blocks (base + 16) 0 (Mem.store64 (fun _ => 0) (base + pages * 4096) behind)
  heapStart := base + 16
  heapSize := pages * 4096
  limit := limit

/-- The blocks fill the pages behind the allocator, and those are mapped. -/
structure Fills (base pages limit : Nat) (blocks : List (Bool × Nat)) : Prop where
  sizes : ∀ b ∈ blocks, b.2 % 16 = 0 ∧ 0 < b.2
  total : (blocks.map Prod.snd).sum + 16 = pages * 4096
  start : base % 16 = 0
  mapped : base + pages * 4096 ≤ limit
  bound : base + pages * 4096 + 16 < 2 ^ 64
  small : pages * 4096 < 2 ^ 63

section
variable {m : Mem} {blocks : List (Bool × Nat)} {a prev x base pages limit : Nat} {behind : BitVec 64}

theorem layBlocks_of_lt (h : x < a) : layBlocks blocks a prev m x = m x := by
  induction blocks generalizing a prev m with
  | nil => rfl
  | cons b blocks ih => exact (ih (by omega)).trans ((Mem.store_of_lt (by omega)).trans (storeFields_of_lt (by omega)))

/-- The first header holds the fields it was given. -/
theorem layBlocks_header {used : Bool} {size : Nat} (h16 : 16 ≤ size) (hsize : size < 2 ^ 63) (hprev : prev < 2 ^ 64) :
    let m' := layBlocks ((used, size) :: blocks) a prev m
    blockSize m' a = size ∧ allocated m' a = used ∧ prevBlockData m' a = prev := by
  have hrest : ∀ y, y < a + size → layBlocks ((used, size) :: blocks) a prev m y =
      setPrevBlockData (storeFields m a used size) a prev y := fun y => layBlocks_of_lt
  have hfields : SameFields (storeFields m a used size) (layBlocks ((used, size) :: blocks) a prev m) a :=
    (Mem.load_congr fun y _ h => hrest y (by omega)).trans (Mem.load64_store64_disjoint _ (by omega))
  have hlink : (layBlocks ((used, size) :: blocks) a prev m).load64 (a + 8) = BitVec.ofNat 64 prev :=
    (Mem.load_congr fun y _ h => hrest y (by omega)).trans (Mem.load64_store64_same ..)
  refine ⟨?_, hfields.allocated.trans (allocated_storeFields ..), ?_⟩
  · rw [hfields.blockSize, blockSize_storeFields, Nat.mod_eq_of_lt hsize]
  · unfold prevBlockData
    rw [hlink, BitVec.toNat_ofNat, Nat.mod_eq_of_lt hprev]

/-- The blocks tile their range, and are linked back. -/
theorem layBlocks_spec (hsizes : ∀ b ∈ blocks, b.2 % 16 = 0 ∧ 0 < b.2) (htotal : (blocks.map Prod.snd).sum < 2 ^ 63)
    (hprev : prev < 2 ^ 64) :
    let m' := layBlocks blocks a prev m
    Tiled (blockSize m') a (blockStarts blocks a) (a + (blocks.map Prod.snd).sum) ∧
      (∀ b ∈ blockStarts blocks a, blockSize m' b % 16 = 0) ∧
        BackLinked (blockSize m') (prevBlockData m') prev (blockStarts blocks a) := by
  induction blocks generalizing a prev m with
  | nil => exact ⟨rfl, fun b hb => (List.not_mem_nil hb).elim, trivial⟩
  | cons b blocks ih =>
    obtain ⟨used, size⟩ := b
    obtain ⟨⟨hal, hpos⟩, hsizes⟩ := List.forall_mem_cons.1 hsizes
    dsimp only at hal hpos
    rw [List.map_cons, List.sum_cons] at htotal ⊢
    dsimp only at htotal ⊢
    obtain ⟨hsize, -, hlink⟩ := @layBlocks_header m blocks a prev used size (by omega) (by omega) hprev
    obtain ⟨h1, h2, h3⟩ := @ih (setPrevBlockData (storeFields m a used size) a prev) (a + size) size hsizes (by omega)
      (by omega)
    rw [← Nat.add_assoc]
    refine ⟨⟨rfl, by omega, ?_⟩, List.forall_mem_cons.2 ⟨by rw [hsize]; exact hal, h2⟩, hlink, ?_⟩
    · rw [hsize]
      exact h1
    · rw [hsize]
      exact h3

theorem laidHeap_tiled (h : Fills base pages limit blocks) :
    HeapTiled (laidHeap base pages limit behind blocks) (blockStarts blocks (base + 16)) := by
  obtain ⟨hsizes, htotal, hstart, hmapped, hbound, hsmall⟩ := h
  obtain ⟨h1, h2, -⟩ := @layBlocks_spec (Mem.store64 (fun _ => 0) (base + pages * 4096) behind) blocks (base + 16) 0 hsizes
    (by omega) (by omega)
  have hstop : (laidHeap base pages limit behind blocks).stop = base + 16 + (blocks.map Prod.snd).sum := by
    show base + 16 + pages * 4096 - 16 = _
    omega
  refine ⟨?_, h2, show (base + 16) % 16 = 0 by omega, ?_, show base + 16 + pages * 4096 < _ by omega⟩
  · rw [hstop]
    exact h1
  · rw [hstop]
    show _ ≤ limit
    omega

end

/-- Two pages of the kernel's window in one block, which is in use; the page behind them is mapped and holds blanks. -/
def fullHeap : Heap := laidHeap 0xFFFFFF0000000000 2 0xFFFFFF0000003000 0x2020202020202020 [(true, 8176)]

theorem fullHeap_tiled : HeapTiled fullHeap [0xFFFFFF0000000010] :=
  laidHeap_tiled ⟨by decide, rfl, by decide, by decide, by decide, by decide⟩

/-- The one block of a page. -/
theorem smallHeap_tiled : HeapTiled smallHeap [0x10010] :=
  ⟨by decide +kernel, by decide +kernel, by decide +kernel, by decide +kernel, by decide +kernel⟩

theorem imalloc_sound_iff_smallHeap :
    (∀ fuel p h', imallocAlocator fuel smallHeap 16 = .ok (some (p, h')) → SoundAlloc smallHeap [0x10010] 16 p h') ↔
      (smallHeap.firstFree [0x10010] = none → ¬smallHeap.FitsBehind (totalSize 16)) :=
  imalloc_sound_iff smallHeap_tiled (by decide)

/-- The blanks behind the full heap read as a free block that wraps around the end of the address space. -/
theorem fullHeap_fits : fullHeap.Fits (totalSize 16) fullHeap.stop :=
  ⟨⟨by decide, by decide⟩, by unfold Heap.More; decide +kernel, by decide +kernel, by decide +kernel,
    fun _ => ⟨by decide +kernel, by decide +kernel⟩⟩

/-- A request is served with memory behind the heap. -/
theorem imalloc_leaves_heap : HeapTiled fullHeap [0xFFFFFF0000000010] ∧ ¬(∀ fuel p h',
    imallocAlocator fuel fullHeap 16 = .ok (some (p, h')) → SoundAlloc fullHeap [0xFFFFFF0000000010] 16 p h') := by
  refine ⟨fullHeap_tiled, fun hsound => ?_⟩
  have hfull : fullHeap.firstFree [0xFFFFFF0000000010] = none := by decide +kernel
  obtain ⟨fuel, hok⟩ := (fullHeap_tiled.served_behind_iff hfull).2 ⟨_, .refl, fullHeap_fits, rfl, rfl⟩
  obtain ⟨b, hb, hfree, -⟩ := (hsound _ _ _ hok).inside
  rw [firstFree_eq_none.1 hfull b hb] at hfree
  cases hfree

/-! ## Links back -/

/-- A tiled heap in which every block names the size of the one in front of it. -/
structure HeapLinked (h : Heap) (bs : List Nat) : Prop extends HeapTiled h bs where
  links : BackLinked (blockSize h.mem) (prevBlockData h.mem) 0 bs

theorem laidHeap_linked {base pages limit : Nat} {behind : BitVec 64} {blocks : List (Bool × Nat)}
    (h : Fills base pages limit blocks) :
    HeapLinked (laidHeap base pages limit behind blocks) (blockStarts blocks (base + 16)) := by
  have hsmall := h.small
  have htotal := h.total
  exact ⟨laidHeap_tiled h, (layBlocks_spec h.sizes (by omega) (by omega)).2.2⟩

section
variable {h h' : Heap} {bs : List Nat} {size b p a t : Nat}

/-- Writing into the payload of a block writes into no header. -/
theorem HeapLinked.write (hl : HeapLinked h bs) (hb : b ∈ bs) {m : Mem}
    (hm : ∀ x, x < b + 16 ∨ b + blockSize h.mem b ≤ x → m x = h.mem x) : HeapLinked { h with mem := m } bs := by
  refine ⟨(hl.toHeapTiled.write hb hm).1, hl.links.congr fun c hc => ?_⟩
  obtain ⟨h1, h2⟩ := hl.toHeapTiled.blocks.write hb hm c hc
  exact ⟨h1.blockSize, h2⟩

/-- Stepping back by its link, `free` lands on the neighbour in front of the block. -/
theorem HeapLinked.neighbour {xs ys : List Nat} {c : Nat} (hl : HeapLinked h (xs ++ b :: c :: ys)) :
    sub64 c (prevBlockData h.mem c) = b := by
  have hend := (hl.visit (show c ∈ xs ++ b :: c :: ys by simp)).1
  have hback := hl.links.step_back hl.tiled
  have hbound := hl.toHeapTiled.blocks.bound
  rw [sub64_of_le (by omega) (by omega)]
  omega

/-- It lands on a block of the heap, or stays where it is. -/
theorem HeapLinked.back_mem (hl : HeapLinked h bs) (hb : b ∈ bs) :
    sub64 b (prevBlockData h.mem b) ∈ bs ∧ sub64 b (prevBlockData h.mem b) ≤ b := by
  have hend := (hl.visit hb).1
  have hstop := (hl.visit hb).2.1
  have hbound := hl.bound
  obtain ⟨pre, post, rfl⟩ := List.append_of_mem hb
  rcases List.eq_nil_or_concat pre with rfl | ⟨xs, c, rfl⟩
  · have hfirst : prevBlockData h.mem b = 0 := hl.links.1
    rw [hfirst, sub64_of_le (Nat.zero_le b) (by omega)]
    exact ⟨hb, Nat.sub_le ..⟩
  · have hbs : xs.concat c ++ b :: post = xs ++ c :: b :: post := by simp
    rw [hbs] at hl
    obtain ⟨x, -, hx, -, hnext, -⟩ := tiled_append.1 hl.tiled
    subst hx
    rw [hl.neighbour, hbs]
    exact ⟨by simp, by omega⟩

/-- A block that is taken whole keeps the links. -/
theorem HeapLinked.takeWhole (hl : HeapLinked h bs) (hb : b ∈ bs) (heq : blockSize h.mem b = t) :
    HeapLinked (h.take t b) bs := by
  have hal := heq ▸ hl.sizes b hb
  have hge := heq ▸ hl.size_ge hb
  refine ⟨hl.toHeapTiled.takeWhole hb heq, hl.links.congr fun x hx => ?_⟩
  by_cases hne : x = b
  · rw [hne, (take_self heq.ge).1, heq]
    exact ⟨rfl, (hl.toHeapTiled.blocks.take_links hb hge heq.ge).1⟩
  · obtain ⟨h1, h2⟩ := hl.toHeapTiled.blocks.take_other hb hal heq.ge (.inl hx) hne
    exact ⟨h1.blockSize, h2⟩

/-- A cut keeps the links just when no block follows: that one goes on to name the size before the cut. -/
theorem HeapLinked.takeCut_iff {pre post bs' : List Nat} (hl : HeapLinked h (pre ++ b :: post)) (hal : t % 16 = 0)
    (h16 : 16 ≤ t) (hlt : t < blockSize h.mem b) (hbs : bs' = pre ++ b :: (b + t) :: post) :
    BackLinked (blockSize (h.take t b).mem) (prevBlockData (h.take t b).mem) 0 bs' ↔ post = [] := by
  have hb : b ∈ pre ++ b :: post := by simp
  have hself : blockSize (h.take t b).mem b = t := (take_self hlt.le).1
  have hnext := (hl.toHeapTiled.blocks.take_next hb h16 hlt).1
  obtain ⟨hlink, hlinkNext⟩ := hl.toHeapTiled.blocks.take_links hb h16 hlt.le
  have hother : ∀ x ∈ pre ++ post, blockSize (h.take t b).mem x = blockSize h.mem x ∧
      prevBlockData (h.take t b).mem x = prevBlockData h.mem x := by
    intro x hx
    obtain ⟨hx', hne⟩ := hl.tiled.beside hx
    obtain ⟨h1, h2⟩ := hl.toHeapTiled.blocks.take_other hb hal hlt.le (.inl hx') hne
    exact ⟨h1.blockSize, h2⟩
  obtain ⟨hpre, hbl, hpost⟩ := backLinked_append.1 hl.links
  have hlast : lastSize (blockSize (h.take t b).mem) 0 pre = lastSize (blockSize h.mem) 0 pre :=
    List.foldl_ext _ _ _ fun _ x hx => (hother x (List.mem_append_left _ hx)).1
  have hpre' : BackLinked (blockSize (h.take t b).mem) (prevBlockData (h.take t b).mem) 0 pre :=
    hpre.congr fun x hx => hother x (List.mem_append_left _ hx)
  rw [hbs, backLinked_append, hlast]
  constructor
  · rintro ⟨-, -, -, h4⟩
    cases post with
    | nil => rfl
    | cons c post =>
      -- the block behind the rest
      have hc := (hother c (by simp)).2
      obtain ⟨h5, -⟩ := h4
      obtain ⟨h6, -⟩ := hpost
      omega
  · rintro rfl
    exact ⟨hpre', hlink.trans hbl, (hlinkNext hlt).trans hself.symm, trivial⟩

/-- A header that is free in a heap all in use is not among the blocks of a heap that agrees with it below that. -/
theorem HeapTiled.not_mem_of_agree (ht : HeapTiled h bs) (hfull : h.firstFree bs = none)
    (hfree : allocated h.mem a = false) {bs' : List Nat} (ht' : HeapTiled h' bs') (hstart : h'.heapStart = h.heapStart)
    (hsize : h'.heapSize = h.heapSize) (hsame : ∀ x, x < a → h'.mem x = h.mem x) : a ∉ bs' := by
  intro ha
  have halign := ht'.aligned ha
  have htile := ht'.tiled
  unfold Heap.stop at htile
  rw [hstart, hsize] at htile
  have hmem : a ∈ bs := by
    refine ht.tiled.mem_of_agree htile ha fun x hx hlt => ?_
    have hxal := ht'.aligned hx
    have hfields : SameFields h.mem h'.mem x := Mem.load_congr fun y h1 h2 => hsame y (by omega)
    exact hfields.blockSize
  rw [firstFree_eq_none.1 hfull a hmem] at hfree
  cases hfree

/-- A header behind a heap that is all in use is not among the blocks when it has been taken. -/
theorem HeapTiled.not_mem_of_fits (ht : HeapTiled h bs) (hfull : h.firstFree bs = none) {bs' : List Nat}
    (hf : h.Fits t a) (ht' : HeapTiled (h.take t a) bs') : a ∉ bs' := by
  intro ha
  have hself : blockSize (h.take t a).mem a = t := (take_self hf.le).1
  have hend := (ht'.visit ha).1
  have hstop := (ht'.visit ha).2.1
  have hbound := ht'.bound
  refine ht.not_mem_of_agree hfull hf.free ht' rfl rfl (fun x hx => take_of_lt (.inl hx) fun _ => .inl ?_) ha
  rw [add64_of_lt (by omega)]
  omega

/-- What the scan comes to is an address of 64 bits. -/
theorem HeapTiled.lt_of_reach (ht : HeapTiled h bs) (hr : ReflTransGen h.Over h.stop a) : a < 2 ^ 64 := by
  have hle := ht.tiled.le
  have hbound := ht.bound
  rcases hr.cases_tail with heq | ⟨c, -, ho⟩
  · rw [heq]
    unfold Heap.stop
    omega
  · rw [ho.next]
    exact u64_lt _

/-- The links are right after every allocation, with the block that is returned among the blocks, just when nothing
behind a heap in use serves, and the first free block is taken whole, too small, or the last one. -/
theorem links_kept_iff (hl : HeapLinked h bs) (hsize : size + 31 < 2 ^ 64) :
    (∀ fuel p h', imallocAlocator fuel h size = .ok (some (p, h')) →
        ∃ bs', HeapLinked h' bs' ∧ sub64 p metaDataSize ∈ bs') ↔
      (h.firstFree bs = none → ¬h.FitsBehind (totalSize size)) ∧
        ∀ b, h.firstFree bs = some b → totalSize size < blockSize h.mem b → b + blockSize h.mem b = h.stop := by
  have ht := hl.toHeapTiled
  obtain ⟨hal, hfit⟩ := totalSize_spec hsize
  constructor
  · intro hkept
    refine ⟨?_, fun b hff hlt => ?_⟩
    · rintro hfull ⟨a, hr, hf⟩
      obtain ⟨fuel, hok⟩ := (ht.served_behind_iff hfull).2 ⟨a, hr, hf, rfl, rfl⟩
      obtain ⟨bs', hl', hmem⟩ := hkept _ _ _ hok
      rw [sub64_add64 (ht.lt_of_reach hr)] at hmem
      exact ht.not_mem_of_fits hfull hf hl'.toHeapTiled hmem
    · obtain ⟨hb, -⟩ := mem_of_firstFree hff
      obtain ⟨fuel, hok⟩ := (ht.served_iff hff).2 ⟨hlt.le, rfl, rfl⟩
      obtain ⟨bs', hl', -⟩ := hkept _ _ _ hok
      obtain ⟨pre, post, rfl⟩ := List.append_of_mem hb
      have hbs := hl'.tiled.unique (ht.takeCut hal (by omega) hlt).tiled
      rw [ht.tiled.end_iff]
      exact (hl.takeCut_iff hal (by omega) hlt hbs).1 hl'.links
  · rintro ⟨hbehind, hlast⟩ fuel p h' hok
    cases hff : h.firstFree bs with
    | none =>
      obtain ⟨a, hr, hf, -⟩ := (ht.served_behind_iff hff).1 ⟨fuel, hok⟩
      exact absurd ⟨a, hr, hf⟩ (hbehind hff)
    | some b =>
      obtain ⟨hle, rfl, rfl⟩ := (ht.served_iff hff).1 ⟨fuel, hok⟩
      obtain ⟨hb, -⟩ := mem_of_firstFree hff
      rw [ht.header hb]
      rcases hle.eq_or_lt with heq | hlt
      · exact ⟨bs, hl.takeWhole hb heq.symm, hb⟩
      · obtain ⟨pre, post, rfl⟩ := List.append_of_mem hb
        have hnil := ht.tiled.end_iff.1 (hlast b hff hlt)
        exact ⟨_, ⟨ht.takeCut hal (by omega) hlt, (hl.takeCut_iff hal (by omega) hlt rfl).2 hnil⟩, by simp⟩

end

/-- A free block of 64 bytes in front of one in use. -/
def cutFreeHeap : Heap := laidHeap 0xFFFFFF0000000000 2 0xFFFFFF0000002000 0 [(false, 64), (true, 8112)]

theorem cutFreeHeap_linked : HeapLinked cutFreeHeap [0xFFFFFF0000000010, 0xFFFFFF0000000050] :=
  laidHeap_linked ⟨by decide, rfl, by decide, by decide, by decide, by decide⟩

theorem links_kept_iff_cutFreeHeap :
    (∀ fuel p h', imallocAlocator fuel cutFreeHeap 16 = .ok (some (p, h')) →
        ∃ bs', HeapLinked h' bs' ∧ sub64 p metaDataSize ∈ bs') ↔
      (cutFreeHeap.firstFree [0xFFFFFF0000000010, 0xFFFFFF0000000050] = none →
          ¬cutFreeHeap.FitsBehind (totalSize 16)) ∧
        ∀ b, cutFreeHeap.firstFree [0xFFFFFF0000000010, 0xFFFFFF0000000050] = some b →
          totalSize 16 < blockSize cutFreeHeap.mem b → b + blockSize cutFreeHeap.mem b = cutFreeHeap.stop :=
  links_kept_iff cutFreeHeap_linked (by decide)

/-- After a request for 16 bytes the block in use still names the 64 bytes that were in front of it. -/
theorem imalloc_breaks_links : HeapLinked cutFreeHeap [0xFFFFFF0000000010, 0xFFFFFF0000000050] ∧
    ¬(∀ fuel p h', imallocAlocator fuel cutFreeHeap 16 = .ok (some (p, h')) →
        ∃ bs', HeapLinked h' bs' ∧ sub64 p metaDataSize ∈ bs') := by
  refine ⟨cutFreeHeap_linked, fun hkept => ?_⟩
  have hl : HeapLinked cutFreeHeap ([] ++ 0xFFFFFF0000000010 :: [0xFFFFFF0000000050]) := cutFreeHeap_linked
  have ht := hl.toHeapTiled
  have hff : cutFreeHeap.firstFree ([] ++ 0xFFFFFF0000000010 :: [0xFFFFFF0000000050]) = some 0xFFFFFF0000000010 := by
    decide +kernel
  have h16 : 16 ≤ totalSize 16 := by decide +kernel
  have hlt : totalSize 16 < blockSize cutFreeHeap.mem 0xFFFFFF0000000010 := by decide +kernel
  obtain ⟨fuel, hok⟩ := (ht.served_iff hff).2 ⟨hlt.le, rfl, rfl⟩
  obtain ⟨bs', hl', -⟩ := hkept _ _ _ hok
  have hbs := hl'.tiled.unique (ht.takeCut totalSize_mod h16 hlt).tiled
  cases (hl.takeCut_iff totalSize_mod h16 hlt hbs).1 hl'.links

/-! ## First fit -/

/-- The free block of lowest address that is large enough. -/
structure LowestFit (h : Heap) (bs : List Nat) (size b : Nat) : Prop where
  mem : b ∈ bs
  free : allocated h.mem b = false
  fits : totalSize size ≤ blockSize h.mem b
  least : ∀ c ∈ bs, allocated h.mem c = false → totalSize size ≤ blockSize h.mem c → b ≤ c

/-- The first block that fits is returned just when no free block lies in front of it. -/
theorem first_fit_complete_iff {h : Heap} {bs : List Nat} {size b : Nat} (ht : HeapTiled h bs)
    (_hsize : size + 31 < 2 ^ 64) (hb : LowestFit h bs size b) :
    (∃ fuel h', imallocAlocator fuel h size = .ok (some (b + metaDataSize, h'))) ↔
      ∀ c ∈ bs, c < b → allocated h.mem c = true := by
  constructor
  · rintro ⟨fuel, h', hok⟩
    cases hff : h.firstFree bs with
    | none =>
      have hused := firstFree_eq_none.1 hff b hb.mem
      rw [hb.free] at hused
      cases hused
    | some d =>
      obtain ⟨-, hp, -⟩ := (ht.served_iff hff).1 ⟨fuel, hok⟩
      obtain rfl : b = d := Nat.add_right_cancel hp
      exact (ht.firstFree_iff.1 hff).2.2
  · intro hfront
    have hff := ht.firstFree_iff.2 ⟨hb.mem, hb.free, hfront⟩
    obtain ⟨fuel, hok⟩ := (ht.served_iff hff).2 ⟨hb.fits, rfl, rfl⟩
    exact ⟨fuel, _, hok⟩

/-- A free block of 16 bytes, without room for a payload, in front of a large one. -/
def smallFirstHeap : Heap := laidHeap 0xFFFFFF0000000000 2 0xFFFFFF0000002000 0 [(false, 16), (true, 32), (false, 8128)]

theorem smallFirstHeap_tiled :
    HeapTiled smallFirstHeap [0xFFFFFF0000000010, 0xFFFFFF0000000020, 0xFFFFFF0000000040] :=
  laidHeap_tiled ⟨by decide, rfl, by decide, by decide, by decide, by decide⟩

theorem smallFirstHeap_fit :
    LowestFit smallFirstHeap [0xFFFFFF0000000010, 0xFFFFFF0000000020, 0xFFFFFF0000000040] 16 0xFFFFFF0000000040 :=
  ⟨by decide, by decide +kernel, by decide +kernel, by decide +kernel⟩

theorem first_fit_complete_iff_smallFirstHeap :
    (∃ fuel h', imallocAlocator fuel smallFirstHeap 16 = .ok (some (0xFFFFFF0000000040 + metaDataSize, h'))) ↔
      ∀ c ∈ [0xFFFFFF0000000010, 0xFFFFFF0000000020, 0xFFFFFF0000000040], c < 0xFFFFFF0000000040 →
        allocated smallFirstHeap.mem c = true :=
  first_fit_complete_iff smallFirstHeap_tiled (by decide) smallFirstHeap_fit

/-- The scan gives up at the small block. -/
theorem imalloc_misses_fit :
    HeapTiled smallFirstHeap [0xFFFFFF0000000010, 0xFFFFFF0000000020, 0xFFFFFF0000000040] ∧
      LowestFit smallFirstHeap [0xFFFFFF0000000010, 0xFFFFFF0000000020, 0xFFFFFF0000000040] 16 0xFFFFFF0000000040 ∧
        ¬∃ fuel h', imallocAlocator fuel smallFirstHeap 16 = .ok (some (0xFFFFFF0000000040 + metaDataSize, h')) := by
  refine ⟨smallFirstHeap_tiled, smallFirstHeap_fit, ?_⟩
  rintro ⟨fuel, h', hok⟩
  have hff : smallFirstHeap.firstFree [0xFFFFFF0000000010, 0xFFFFFF0000000020, 0xFFFFFF0000000040] =
      some 0xFFFFFF0000000010 := by decide +kernel
  obtain ⟨hle, -⟩ := (smallFirstHeap_tiled.served_iff hff).1 ⟨fuel, hok⟩
  exact absurd hle (by decide +kernel)

end Icarus.Memory
