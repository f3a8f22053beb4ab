/-
The scan of `Imalloc_alocator` over a tiled heap: where it stops, and what a block it returns is worth. It stops at the
first free header. Whether that one serves decides over first fit; when there is none, the end test lets it read on
behind the last block, and a cut leaves the link of the block behind it as it was.
-/
import Mathlib.Logic.Relation
import Icarus.Memory.HeapSafety

namespace Icarus.Memory

open Icarus.Base Relation

/-! ## Steps of the scan -/

/-- The header lies in mapped memory. -/
def Heap.Readable (h : Heap) (a : Nat) : Prop := h.heapStart ≤ a + metaDataSize ∧ a + metaDataSize ≤ h.limit

/-- The end test lets the scan go on with the header at `a`. -/
def Heap.More (h : Heap) (a : Nat) : Prop := add64 a (blockSize h.mem a) < add64 h.heapStart h.heapSize

/-- From a header in use to the next. -/
structure Heap.Over (h : Heap) (a a' : Nat) : Prop where
  readable : h.Readable a
  more : h.More a
  used : allocated h.mem a = true
  next : a' = add64 a (blockSize h.mem a)

/-- The free header serves a request for `size` bytes, its own included. -/
structure Heap.Fits (h : Heap) (size a : Nat) : Prop where
  readable : h.Readable a
  more : h.More a
  free : allocated h.mem a = false
  le : size ≤ blockSize h.mem a
  rest : size < blockSize h.mem a → h.Readable (add64 a size)

/-- The header at which the scan gives up. -/
structure Heap.Misses (h : Heap) (size a : Nat) : Prop where
  readable : h.Readable a
  small : h.More a → allocated h.mem a = false ∧ blockSize h.mem a < size

/-- What the scan returns from the header at which it stops. -/
inductive Heap.Stops (h : Heap) (size a : Nat) : Option (Nat × Heap) → Prop
  | fits : h.Fits size a → Heap.Stops h size a (some (add64 a metaDataSize, h.take size a))
  | misses : h.Misses size a → Heap.Stops h size a none

section
variable {h : Heap} {size a a' fuel : Nat} {r : Option (Nat × Heap)}

theorem stops_some {p : Nat} {h' : Heap} : h.Stops size a (some (p, h')) ↔
    h.Fits size a ∧ p = add64 a metaDataSize ∧ h' = h.take size a := by
  constructor
  · intro hs
    cases hs with
    | fits hf => exact ⟨hf, rfl, rfl⟩
  · rintro ⟨hf, rfl, rfl⟩
    exact .fits hf

theorem stops_none : h.Stops size a none ↔ h.Misses size a := by
  constructor
  · intro hs
    cases hs with
    | misses hm => exact hm
  · exact .misses

theorem touch_of_readable (hr : h.Readable a) : h.touch a = .ok () := touch_eq_ok.2 hr

theorem imallocScan_over (ho : h.Over a a') : imallocScan (fuel + 1) size a h = imallocScan fuel size a' h := by
  have hmore := ho.more
  unfold Heap.More at hmore
  conv_lhs => unfold imallocScan
  rw [touch_of_readable ho.readable, ho.used, ho.next]
  dsimp only [bind, Except.bind]
  simp [hmore]

theorem imallocScan_stops (hs : h.Stops size a r) : imallocScan (fuel + 1) size a h = .ok r := by
  unfold imallocScan
  cases hs with
  | fits hf =>
    have hmore := hf.more
    unfold Heap.More at hmore
    rw [touch_of_readable hf.readable, hf.free]
    dsimp only [bind, Except.bind]
    rw [if_pos hmore]
    unfold Heap.take
    rcases hf.le.eq_or_lt with heq | hlt
    · simp [heq]
      rfl
    · simp only [Bool.not_false, Bool.true_and, beq_iff_eq, hlt.ne', if_false, gt_iff_lt, hlt, decide_true, if_true,
        touch_of_readable (hf.rest hlt)]
      rfl
  | misses hm =>
    rw [touch_of_readable hm.readable]
    dsimp only [bind, Except.bind]
    by_cases hmore : h.More a
    · obtain ⟨hfree, hlt⟩ := hm.small hmore
      unfold Heap.More at hmore
      rw [if_pos hmore, hfree]
      simp only [Bool.not_false, Bool.true_and, beq_iff_eq, hlt.ne, if_false, gt_iff_lt, decide_eq_true_eq,
        Nat.lt_asymm hlt, if_true]
      rfl
    · unfold Heap.More at hmore
      rw [if_neg hmore]
      rfl

/-- A scan that returns has stopped here, or goes on. -/
theorem imallocScan_succ (hok : imallocScan (fuel + 1) size a h = .ok r) :
    h.Stops size a r ∨ ∃ a', h.Over a a' ∧ imallocScan fuel size a' h = .ok r := by
  unfold imallocScan at hok
  obtain ⟨_, htouch, hok⟩ := bind_eq_ok.1 hok
  have hread : h.Readable a := touch_eq_ok.1 htouch
  split_ifs at hok with h1 h2 h3 h4
  · simp only [Bool.and_eq_true, Bool.not_eq_true', beq_iff_eq] at h2
    cases hok
    have hf : h.Fits size a := ⟨hread, h1, h2.1, h2.2.ge, fun hlt => absurd h2.2 hlt.ne'⟩
    have ht : h.take size a = { h with mem := setAllocated h.mem a true } := by
      unfold Heap.take
      rw [if_pos h2.2]
    rw [← ht]
    exact .inl (.fits hf)
  · simp only [Bool.and_eq_true, Bool.not_eq_true', decide_eq_true_eq] at h3
    obtain ⟨_, htouch', hok⟩ := bind_eq_ok.1 hok
    cases hok
    have hf : h.Fits size a := ⟨hread, h1, h3.1, h3.2.le, fun _ => touch_eq_ok.1 htouch'⟩
    have ht : h.take size a = { h with mem := splitBlock h.mem a size } := by
      unfold Heap.take
      rw [if_neg (Nat.ne_of_gt h3.2)]
    rw [← ht]
    exact .inl (.fits hf)
  · cases hok
    have hfree : allocated h.mem a = false := by simpa using h4
    simp only [hfree, Bool.not_false, Bool.true_and, beq_iff_eq, decide_eq_true_eq] at h2 h3
    exact .inl (.misses ⟨hread, fun _ => ⟨hfree, by omega⟩⟩)
  · have hused : allocated h.mem a = true := by simpa using h4
    exact .inr ⟨_, ⟨hread, h1, hused, rfl⟩, hok⟩
  · cases hok
    exact .inl (.misses ⟨hread, fun hmore => absurd hmore h1⟩)

/-- The scan returns what the header gives at which it stops after stepping over headers in use. -/
theorem imallocScan_eq_ok : (∃ fuel, imallocScan fuel size a h = .ok r) ↔
    ∃ b, ReflTransGen h.Over a b ∧ h.Stops size b r := by
  constructor
  · rintro ⟨fuel, hok⟩
    induction fuel generalizing a with
    | zero => cases hok
    | succ fuel ih =>
      rcases imallocScan_succ hok with hs | ⟨a', ho, hok'⟩
      · exact ⟨a, .refl, hs⟩
      · obtain ⟨b, hab, hs⟩ := ih hok'
        exact ⟨b, hab.head ho, hs⟩
  · rintro ⟨b, hab, hs⟩
    induction hab using ReflTransGen.head_induction_on with
    | refl => exact ⟨1, imallocScan_stops hs⟩
    | head ho _ ih =>
      obtain ⟨fuel, hok⟩ := ih
      exact ⟨fuel + 1, (imallocScan_over ho).trans hok⟩

/-- The scan stops at one header only. -/
theorem Heap.stops_unique {b c size' : Nat} {r' : Option (Nat × Heap)} (hb : ReflTransGen h.Over a b)
    (hsb : h.Stops size b r) (hc : ReflTransGen h.Over a c) (hsc : h.Stops size' c r') : b = c := by
  have hover : ∀ {x y s : Nat} {q : Option (Nat × Heap)}, h.Stops s x q → ¬h.Over x y := by
    intro x y s q hs ho
    have hused := ho.used
    cases hs with
    | fits hf =>
      rw [hf.free] at hused
      cases hused
    | misses hm =>
      rw [(hm.small ho.more).1] at hused
      cases hused
  have hright : Relator.RightUnique h.Over := fun x y z h1 h2 => h1.next.trans h2.next.symm
  rcases ReflTransGen.total_of_right_unique hright hb hc with hbc | hcb
  · rcases hbc.cases_head with heq | ⟨d, ho, -⟩
    · exact heq
    · exact absurd ho (hover hsb)
  · rcases hcb.cases_head with heq | ⟨d, ho, -⟩
    · exact heq.symm
    · exact absurd ho (hover hsc)

end

/-! ## Tiled heaps -/

/-- Where the blocks of the heap end: the size counts the allocator in front of them as well. -/
def Heap.stop (h : Heap) : Nat := h.heapStart + h.heapSize - 16

/-- The blocks, of multiples of 16 bytes, tile the heap from its aligned start on, in mapped memory. -/
structure HeapTiled (h : Heap) (bs : List Nat) : Prop where
  tiled : Tiled (blockSize h.mem) h.heapStart bs h.stop
  sizes : ∀ b ∈ bs, blockSize h.mem b % 16 = 0
  start : h.heapStart % 16 = 0
  mapped : h.stop ≤ h.limit
  bound : h.heapStart + h.heapSize < 2 ^ 64

/-- The first free block. -/
def Heap.firstFree (h : Heap) (bs : List Nat) : Option Nat := bs.find? fun b => !allocated h.mem b

/-- Behind the heap a walk over headers in use comes to a free one that serves the request. -/
def Heap.FitsBehind (h : Heap) (size : Nat) : Prop := ∃ a, ReflTransGen h.Over h.stop a ∧ h.Fits size a

section
variable {h h' : Heap} {bs : List Nat} {size b c : Nat}

theorem HeapTiled.blocks (ht : HeapTiled h bs) : Blocks h.mem h.heapStart h.stop bs := by
  refine ⟨ht.tiled, ht.sizes, ?_⟩
  have := ht.bound
  unfold Heap.stop
  omega

/-- New memory with blocks in the same range. -/
theorem HeapTiled.of_blocks (ht : HeapTiled h bs) {m : Mem} {bs' : List Nat}
    (hs : Blocks m h.heapStart h.stop bs') : HeapTiled { h with mem := m } bs' :=
  ⟨hs.tiled, hs.sizes, ht.start, ht.mapped, ht.bound⟩

theorem HeapTiled.size_ge (ht : HeapTiled h bs) (hb : b ∈ bs) : 16 ≤ blockSize h.mem b := ht.blocks.size_ge hb

theorem HeapTiled.aligned (ht : HeapTiled h bs) (hb : b ∈ bs) : b % 16 = 0 :=
  ht.tiled.aligned ht.start ht.sizes hb

/-- A block lies inside the heap, its header in mapped memory, and the end test lets the scan look at it. -/
theorem HeapTiled.visit (ht : HeapTiled h bs) (hb : b ∈ bs) :
    b + blockSize h.mem b ≤ h.stop ∧ h.stop + 16 = h.heapStart + h.heapSize ∧ h.Readable b ∧ h.More b := by
  obtain ⟨h1, h2⟩ := ht.tiled.bounds hb
  have hge := ht.size_ge hb
  have hmapped := ht.mapped
  have hbound := ht.bound
  have hstop : h.stop + 16 = h.heapStart + h.heapSize := by
    unfold Heap.stop at h2 ⊢
    omega
  refine ⟨h2, hstop, ⟨?_, ?_⟩, ?_⟩
  · unfold metaDataSize
    omega
  · unfold metaDataSize
    omega
  · unfold Heap.More
    rw [add64_of_lt (by omega), add64_of_lt hbound]
    omega

/-- A block in use is stepped over. -/
theorem HeapTiled.over (ht : HeapTiled h bs) (hb : b ∈ bs) (hused : allocated h.mem b = true) :
    h.Over b (b + blockSize h.mem b) := by
  obtain ⟨h1, h2, h3, h4⟩ := ht.visit hb
  have hbound := ht.bound
  exact ⟨h3, h4, hused, (add64_of_lt (by omega)).symm⟩

/-- A free block that is large enough serves. -/
theorem HeapTiled.fits (ht : HeapTiled h bs) (hb : b ∈ bs) (hfree : allocated h.mem b = false)
    (hal : size % 16 = 0) (hle : size ≤ blockSize h.mem b) : h.Fits size b := by
  obtain ⟨h1, h2, h3, h4⟩ := ht.visit hb
  have hbound := ht.bound
  have hmapped := ht.mapped
  have hsize := ht.sizes b hb
  have hstart := h3.1
  refine ⟨h3, h4, hfree, hle, fun hlt => ?_⟩
  rw [add64_of_lt (by omega)]
  unfold Heap.Readable
  unfold metaDataSize at hstart ⊢
  omega

/-- The blocks in front of `b` are in use: the scan comes to `b`. -/
theorem HeapTiled.reach (ht : HeapTiled h bs) {pre : List Nat} {a : Nat} (htile : Tiled (blockSize h.mem) a pre b)
    (hpre : ∀ c ∈ pre, c ∈ bs ∧ allocated h.mem c = true) : ReflTransGen h.Over a b := by
  induction pre generalizing a with
  | nil =>
    obtain rfl : a = b := htile
    exact .refl
  | cons c pre ih =>
    obtain ⟨rfl, -, htile⟩ := htile
    obtain ⟨hc, hused⟩ := hpre c (List.mem_cons_self ..)
    exact (ih htile fun d hd => hpre d (List.mem_cons_of_mem _ hd)).head (ht.over hc hused)

/-- Where the scan can come from the block at `a`: to a block behind blocks in use, or behind the heap. -/
theorem HeapTiled.reached (ht : HeapTiled h bs) {rest : List Nat} {a : Nat} (hsub : ∀ c ∈ rest, c ∈ bs)
    (htile : Tiled (blockSize h.mem) a rest h.stop) (hr : ReflTransGen h.Over a b) :
    (∃ pre post, rest = pre ++ b :: post ∧ ∀ c ∈ pre, allocated h.mem c = true) ∨
      (∀ c ∈ rest, allocated h.mem c = true) ∧ ReflTransGen h.Over h.stop b := by
  induction rest generalizing a with
  | nil =>
    obtain rfl : a = h.stop := htile
    exact .inr ⟨fun c hc => (List.not_mem_nil hc).elim, hr⟩
  | cons c rest ih =>
    obtain ⟨rfl, -, htile⟩ := htile
    rcases hr.cases_head with rfl | ⟨a', ho, hr'⟩
    · exact .inl ⟨[], rest, rfl, fun d hd => (List.not_mem_nil hd).elim⟩
    · have hover := ht.over (hsub c (List.mem_cons_self ..)) ho.used
      obtain rfl : a' = c + blockSize h.mem c := ho.next.trans hover.next.symm
      rcases ih (fun d hd => hsub d (List.mem_cons_of_mem _ hd)) htile hr' with ⟨pre, post, rfl, hpre⟩ | ⟨hall, hbehind⟩
      · exact .inl ⟨c :: pre, post, rfl, List.forall_mem_cons.2 ⟨ho.used, hpre⟩⟩
      · exact .inr ⟨List.forall_mem_cons.2 ⟨ho.used, hall⟩, hbehind⟩

/-- The block that is free first has blocks in use in front of it only. -/
theorem firstFree_eq_some : h.firstFree bs = some b ↔ allocated h.mem b = false ∧
    ∃ pre post, bs = pre ++ b :: post ∧ ∀ c ∈ pre, allocated h.mem c = true := by
  unfold Heap.firstFree
  rw [List.find?_eq_some_iff_append]
  simp

theorem firstFree_eq_none : h.firstFree bs = none ↔ ∀ c ∈ bs, allocated h.mem c = true := by
  unfold Heap.firstFree
  simp

theorem mem_of_firstFree (hb : h.firstFree bs = some b) : b ∈ bs ∧ allocated h.mem b = false := by
  obtain ⟨hfree, pre, post, rfl, -⟩ := firstFree_eq_some.1 hb
  exact ⟨by simp, hfree⟩

/-- It is the free block of lowest address. -/
theorem HeapTiled.firstFree_iff (ht : HeapTiled h bs) : h.firstFree bs = some b ↔ b ∈ bs ∧ allocated h.mem b = false ∧
    ∀ c ∈ bs, c < b → allocated h.mem c = true := by
  rw [firstFree_eq_some]
  constructor
  · rintro ⟨hfree, pre, post, rfl, hpre⟩
    exact ⟨by simp, hfree, fun c hc hlt => hpre c ((ht.tiled.mem_front_iff hc).2 hlt)⟩
  · rintro ⟨hb, hfree, hfront⟩
    obtain ⟨pre, post, rfl⟩ := List.append_of_mem hb
    refine ⟨hfree, pre, post, rfl, fun c hc => ?_⟩
    have hmem : c ∈ pre ++ b :: post := List.mem_append_left _ hc
    exact hfront c hmem ((ht.tiled.mem_front_iff hmem).1 hc)

/-- The payload behind its header. -/
theorem HeapTiled.payload (ht : HeapTiled h bs) (hb : b ∈ bs) : add64 b metaDataSize = b + metaDataSize := by
  have := (ht.visit hb).1
  have := ht.size_ge hb
  have := ht.blocks.bound
  exact add64_of_lt (by unfold metaDataSize; omega)

/-- The scan of a heap with a free block ends at the first of these. -/
theorem HeapTiled.scan_free (ht : HeapTiled h bs) (hb : h.firstFree bs = some b) {r : Option (Nat × Heap)} :
    (∃ fuel, imallocAlocator fuel h c = .ok r) ↔ h.Stops (totalSize c) b r := by
  obtain ⟨hfree, pre, post, hbs, hpre⟩ := firstFree_eq_some.1 hb
  have htile := ht.tiled
  rw [hbs] at htile
  obtain ⟨b', htpre, rfl, -⟩ := tiled_append.1 htile
  unfold imallocAlocator
  rw [imallocScan_eq_ok]
  constructor
  · rintro ⟨d, hr, hs⟩
    -- the scan stops at a header that is free, or behind the heap
    rcases ht.reached (fun c hc => hc) ht.tiled hr with ⟨pre', post', hbs', hpre'⟩ | ⟨hall, -⟩
    · have hd : h.firstFree bs = some d := by
        refine firstFree_eq_some.2 ⟨?_, pre', post', hbs', hpre'⟩
        cases hs with
        | fits hf => exact hf.free
        | misses hm => exact (hm.small (ht.visit (by rw [hbs']; simp)).2.2.2).1
      obtain rfl : b = d := Option.some.inj (hb.symm.trans hd)
      exact hs
    · rw [hall b (mem_of_firstFree hb).1] at hfree
      cases hfree
  · intro hs
    exact ⟨b, ht.reach htpre fun c hc => ⟨by rw [hbs]; exact List.mem_append_left _ hc, hpre c hc⟩, hs⟩

/-- The scan of a heap in use goes on behind it. -/
theorem HeapTiled.scan_full (ht : HeapTiled h bs) (hfull : h.firstFree bs = none) {r : Option (Nat × Heap)} :
    (∃ fuel, imallocAlocator fuel h c = .ok r) ↔ ∃ a, ReflTransGen h.Over h.stop a ∧ h.Stops (totalSize c) a r := by
  have hall := firstFree_eq_none.1 hfull
  unfold imallocAlocator
  rw [imallocScan_eq_ok]
  constructor
  · rintro ⟨d, hr, hs⟩
    rcases ht.reached (fun c hc => hc) ht.tiled hr with ⟨pre, post, hbs, -⟩ | ⟨-, hbehind⟩
    · have hd : d ∈ bs := by rw [hbs]; simp
      have hused := hall d hd
      cases hs with
      | fits hf =>
        rw [hf.free] at hused
        cases hused
      | misses hm =>
        rw [(hm.small (ht.visit hd).2.2.2).1] at hused
        cases hused
    · exact ⟨d, hbehind, hs⟩
  · rintro ⟨a, hr, hs⟩
    exact ⟨a, (ht.reach ht.tiled fun c hc => ⟨hc, hall c hc⟩).trans hr, hs⟩

/-- The header in front of its payload. -/
theorem HeapTiled.header (ht : HeapTiled h bs) (hb : b ∈ bs) : sub64 (b + metaDataSize) metaDataSize = b := by
  have := (ht.visit hb).1
  have := ht.size_ge hb
  have := ht.blocks.bound
  rw [sub64_of_le (Nat.le_add_left ..) (by unfold metaDataSize; omega), Nat.add_sub_cancel]

/-- With a free block in the heap a request is served from the first of these or not at all. -/
theorem HeapTiled.served_iff (ht : HeapTiled h bs) (hb : h.firstFree bs = some b) {p : Nat} :
    (∃ fuel, imallocAlocator fuel h c = .ok (some (p, h'))) ↔
      totalSize c ≤ blockSize h.mem b ∧ p = b + metaDataSize ∧ h' = h.take (totalSize c) b := by
  obtain ⟨hmem, hfree⟩ := mem_of_firstFree hb
  rw [ht.scan_free hb, stops_some, ht.payload hmem]
  exact and_congr_left fun _ => ⟨fun hf => hf.le, ht.fits hmem hfree totalSize_mod⟩

theorem HeapTiled.refused_iff (ht : HeapTiled h bs) (hb : h.firstFree bs = some b) :
    (∃ fuel, imallocAlocator fuel h c = .ok none) ↔ blockSize h.mem b < totalSize c := by
  obtain ⟨hmem, hfree⟩ := mem_of_firstFree hb
  obtain ⟨-, -, hread, hmore⟩ := ht.visit hmem
  rw [ht.scan_free hb, stops_none]
  constructor
  · intro hm
    exact (hm.small hmore).2
  · intro hlt
    exact ⟨hread, fun _ => ⟨hfree, hlt⟩⟩

/-- With none it is served from what looks like a header behind the heap. -/
theorem HeapTiled.served_behind_iff (ht : HeapTiled h bs) (hfull : h.firstFree bs = none) {p : Nat} :
    (∃ fuel, imallocAlocator fuel h c = .ok (some (p, h'))) ↔ ∃ a, ReflTransGen h.Over h.stop a ∧
      h.Fits (totalSize c) a ∧ p = add64 a metaDataSize ∧ h' = h.take (totalSize c) a := by
  simp only [ht.scan_full hfull, stops_some]

theorem HeapTiled.refused_behind_iff (ht : HeapTiled h bs) (hfull : h.firstFree bs = none) :
    (∃ fuel, imallocAlocator fuel h c = .ok none) ↔
      ∃ a, ReflTransGen h.Over h.stop a ∧ h.Misses (totalSize c) a := by
  simp only [ht.scan_full hfull, stops_none]

end

/-! ## The block that is taken -/

section
variable {h : Heap} {bs : List Nat} {size b : Nat}

/-- Writing into the payload of a block writes into no header. -/
theorem HeapTiled.write (ht : HeapTiled h bs) (hb : b ∈ bs) {m : Mem}
    (hm : ∀ x, x < b + 16 ∨ b + blockSize h.mem b ≤ x → m x = h.mem x) :
    HeapTiled { h with mem := m } bs ∧ ∀ c ∈ bs, SameFields h.mem m c := by
  have hsame := ht.blocks.write hb hm
  exact ⟨ht.of_blocks (ht.blocks.congr fun c hc => (hsame c hc).1.blockSize), fun c hc => (hsame c hc).1⟩

/-- A block that is taken whole. -/
theorem HeapTiled.takeWhole (ht : HeapTiled h bs) (hb : b ∈ bs) (heq : blockSize h.mem b = size) :
    HeapTiled (h.take size b) bs := ht.of_blocks (ht.blocks.takeWhole hb heq)

/-- A block that is cut: the rest is a free block of its own. -/
theorem HeapTiled.takeCut {pre post : List Nat} (ht : HeapTiled h (pre ++ b :: post)) (hal : size % 16 = 0)
    (h16 : 16 ≤ size) (hlt : size < blockSize h.mem b) :
    HeapTiled (h.take size b) (pre ++ b :: (b + size) :: post) := ht.of_blocks (ht.blocks.takeCut hal h16 hlt)

/-- Taking a block leaves the heap tiled, with this block among its blocks. -/
theorem HeapTiled.take (ht : HeapTiled h bs) (hb : b ∈ bs) (hal : size % 16 = 0) (h16 : 16 ≤ size)
    (hle : size ≤ blockSize h.mem b) : ∃ bs', HeapTiled (h.take size b) bs' ∧ b ∈ bs' := by
  obtain ⟨bs', hblocks, hsub⟩ := ht.blocks.take hb hal h16 hle
  exact ⟨bs', ht.of_blocks hblocks, hsub hb⟩

end

end Icarus.Memory
