/-
What `show_bit_map` prints of a bitmap (BitMap.c), and what `show_mem_map` prints of the memory with it (mem_map.c): the
blocks are the maximal ones, so they say what every bit is, but the view of a region takes its number of frames for the
index behind its last bit.
-/
import Icarus.Base.Blocks
import Icarus.Memory.FrameMap

namespace Icarus.Memory

open Icarus.Base

/-! ## The code -/

/-- The inner loop of `show_bit_map` and `show_bit_map_range`, over `i` and `blockS`. -/
def sameBits (map : BitMap) (stop : Nat) (currentlySet : Bool) : Nat × Nat → Nat × Nat :=
  whileLoop (fun (i, _) => i < stop && currentlySet == map.bit i) (fun (i, blockS) => (i + 1, blockS + 1)) stop

/-- The state of the outer loop, with what is printed so far. -/
structure ShowState where
  i : Nat
  currentlySet : Bool
  shown : List (Block Bool)

/-- One round: a block is printed, its bounds as `unit` has them. -/
def showRound (unit : Nat → Nat) (map : BitMap) (stop : Nat) (s : ShowState) : ShowState :=
  let (i, blockS) := sameBits map stop s.currentlySet (s.i, 0)
  { i, currentlySet := !s.currentlySet, shown := s.shown ++ [⟨s.currentlySet, unit (i - blockS), unit i⟩] }

/-- The loop of both, from an index on. -/
def showBlocks (unit : Nat → Nat) (map : BitMap) (start stop : Nat) : List (Block Bool) :=
  (whileLoop (fun s => s.i < stop) (showRound unit map stop) stop ⟨start, map.bit start, []⟩).shown

/-- `show_bit_map`. -/
def showBitMap (map : BitMap) : List (Block Bool) := showBlocks id map 0 map.size

/-- `show_bit_map_range`. The check takes its last argument for a length, the loop for an index. -/
def showBitMapRange (map : BitMap) (start stop : Nat) : Int × List (Block Bool) :=
  if start > map.size ∨ stop > sub64 map.size start then (-1, [])
  else (0, showBlocks (mul64 · defaultPageSize) map start stop)

/-- What is printed for a region. -/
structure RegionView where
  index : Nat
  startAddr : Nat
  lenBytes : Nat
  frames : Nat
  freeFrames : Nat
  view : List (Block Bool)

/-- `show_mem_map`. -/
def showMemMap (mmap : MemMap) (verbose : Bool) : List RegionView :=
  mmap.regions.mapIdx fun i region =>
    { index := i
      startAddr := region.startAddr
      lenBytes := region.lenBytes
      frames := region.lenBytes / defaultPageSize
      freeFrames := region.freeFrames
      view :=
        if verbose then (showBitMapRange mmap.bitmap region.bitmapStartAddr (region.lenBytes / defaultPageSize)).2
        else [] }

/-! ## The loops -/

/-- A block with its bounds in other units. -/
def inUnits (unit : Nat → Nat) (b : Block Bool) : Block Bool := ⟨b.value, unit b.start, unit b.stop⟩

/-- The inner loop stops at the first bit that differs, or at the end. -/
theorem sameBits_spec (map : BitMap) (stop : Nat) (set : Bool) {i : Nat} (hi : i ≤ stop) :
    ∃ i', sameBits map stop set (i, 0) = (i', i' - i) ∧ i ≤ i' ∧ i' ≤ stop ∧
      (∀ j, i ≤ j → j < i' → map.bit j = set) ∧ (i' < stop → map.bit i' ≠ set) := by
  have hloop := whileLoop_spec (fun (s : Nat × Nat) => s.1 < stop && set == map.bit s.1)
    (fun (s : Nat × Nat) => (s.1 + 1, s.2 + 1))
    (fun s => i ≤ s.1 ∧ s.1 ≤ stop ∧ s.2 = s.1 - i ∧ ∀ j, i ≤ j → j < s.1 → map.bit j = set) (fun s => stop - s.1)
    ?_ stop (i, 0) ⟨le_rfl, hi, by simp, fun j h h' => by omega⟩ (by simp)
  · obtain ⟨⟨hle, hstop, hblock, hsame⟩, hend⟩ := hloop
    refine ⟨(sameBits map stop set (i, 0)).1, Prod.ext rfl hblock, hle, hstop, hsame, fun hlt heq => ?_⟩
    have hgoes : (decide ((sameBits map stop set (i, 0)).1 < stop) && set == map.bit (sameBits map stop set (i, 0)).1) =
        true := by
      rw [heq, decide_eq_true hlt, beq_self_eq_true]
      rfl
    exact absurd (hgoes.symm.trans hend) (by decide)
  · rintro ⟨i', blockS⟩ ⟨hle, hstop, hblock, hsame⟩ hcond
    simp only [Bool.and_eq_true, decide_eq_true_eq, beq_iff_eq] at hcond
    simp only at hle hstop hblock hsame ⊢
    refine ⟨⟨by omega, by omega, by omega, fun j hj hj' => ?_⟩, by omega⟩
    rcases Nat.lt_succ_iff_lt_or_eq.1 hj' with hlt | rfl
    · exact hsame j hj hlt
    · exact hcond.2.symm

/-- The outer loop prints the maximal blocks from where it is. -/
theorem showLoop_spec (unit : Nat → Nat) (map : BitMap) (stop fuel : Nat) (s : ShowState) (hfuel : stop - s.i ≤ fuel)
    (hset : s.i < stop → map.bit s.i = s.currentlySet) :
    ∃ bs, IsBlocks map.bit stop s.i bs ∧
      (whileLoop (fun s => s.i < stop) (showRound unit map stop) fuel s).shown = s.shown ++ bs.map (inUnits unit) := by
  induction fuel generalizing s with
  | zero => exact ⟨[], by unfold IsBlocks; omega, by rw [List.map_nil, List.append_nil]; rfl⟩
  | succ fuel ih =>
    unfold whileLoop
    by_cases hlt : s.i < stop
    · rw [if_pos (decide_eq_true hlt)]
      obtain ⟨i', hloop, hle, hstop, hsame, hmax⟩ := sameBits_spec map stop s.currentlySet hlt.le
      have hmore : s.i < i' := by
        rcases Nat.eq_or_lt_of_le hle with rfl | h
        · exact absurd (hset hlt) (hmax hlt)
        · exact h
      have hround : showRound unit map stop s =
          ⟨i', !s.currentlySet, s.shown ++ [inUnits unit ⟨s.currentlySet, s.i, i'⟩]⟩ := by
        unfold showRound
        rw [hloop]
        simp only [show i' - (i' - s.i) = s.i by omega]
        rfl
      have hnext : i' < stop → map.bit i' = !s.currentlySet := fun h => Bool.eq_not_of_ne (hmax h)
      obtain ⟨bs, hblocks, hshown⟩ := ih (showRound unit map stop s) (by rw [hround]; simp only; omega)
        (by rw [hround]; exact hnext)
      rw [hround] at hblocks
      refine ⟨⟨s.currentlySet, s.i, i'⟩ :: bs, ⟨rfl, hmore, hstop, hsame, hmax, hblocks⟩, ?_⟩
      rw [hshown, hround, List.map_cons, List.append_assoc]
      rfl
    · rw [if_neg (by simpa using hlt)]
      exact ⟨[], by unfold IsBlocks; omega, by rw [List.map_nil, List.append_nil]⟩

theorem showBlocks_spec (unit : Nat → Nat) (map : BitMap) (start stop : Nat) :
    ∃ bs, IsBlocks map.bit stop start bs ∧ showBlocks unit map start stop = bs.map (inUnits unit) :=
  showLoop_spec unit map stop stop ⟨start, map.bit start, []⟩ (Nat.sub_le _ _) fun _ => rfl

theorem inUnits_id : inUnits id = id := rfl

theorem showBitMap_isBlocks (map : BitMap) : IsBlocks map.bit map.size 0 (showBitMap map) := by
  obtain ⟨bs, hblocks, hshown⟩ := showBlocks_spec id map 0 map.size
  unfold showBitMap
  rw [hshown, inUnits_id, List.map_id]
  exact hblocks

/-- What is printed of a bitmap says how long it is and what every bit is, and it says no more. -/
theorem showBitMap_eq_iff (map map' : BitMap) :
    showBitMap map = showBitMap map' ↔ map.size = map'.size ∧ ∀ j, j < map.size → map.bit j = map'.bit j := by
  have h := showBitMap_isBlocks map
  have h' := showBitMap_isBlocks map'
  constructor
  · intro heq
    rw [← heq] at h'
    have hsize := h.stop_eq h' (Nat.zero_le _) (Nat.zero_le _)
    rw [← hsize] at h'
    exact ⟨hsize, fun j hj => h.agree h' j (Nat.zero_le j) hj⟩
  · rintro ⟨hsize, hbits⟩
    rw [← hsize] at h'
    exact (h.congr fun j _ hj => hbits j hj).unique h'

/-! ## The memory -/

/-- The blocks of a range of bits, with their bounds in bytes. -/
def Views (map : BitMap) (start stop : Nat) (view : List (Block Bool)) : Prop :=
  ∃ bs, IsBlocks map.bit stop start bs ∧ view = bs.map (inUnits (4096 * ·))

theorem Shaped.frames_pos {mmap : MemMap} (h : Shaped mmap) {r : MemRegion} (hr : r ∈ mmap.regions) : 0 < r.frames := by
  have hlen := h.nonempty r hr
  have halign := h.lenAligned r hr
  unfold MemRegion.frames
  unfold defaultPageSize at halign ⊢
  omega

/-- A slice begins at the first bit only in the first region. -/
theorem Shaped.slice_start {mmap : MemMap} (h : Shaped mmap) {i : Nat} (hi : i < mmap.regions.length) :
    mmap.regions[i].bitmapStartAddr = 0 ↔ i = 0 := by
  have hlaid := h.laidOut
  constructor
  · intro hzero
    by_contra hne
    have hfirst : 0 < mmap.regions.length := by omega
    have hbefore := List.pairwise_iff_getElem.1 hlaid.pairwise 0 i hfirst hi (by omega)
    have hmem : mmap.regions[0] ∈ mmap.regions := List.getElem_mem hfirst
    have hwords := h.qwordCount_eq hmem
    have hframes := h.frames_pos hmem
    omega
  · rintro rfl
    generalize mmap.regions = rs at hlaid hi
    cases rs with
    | nil => exact absurd hi (Nat.lt_irrefl 0)
    | cons r rs => exact hlaid.1

theorem inUnits_injective : Function.Injective (inUnits (4096 * ·)) := by
  rintro ⟨v, a, b⟩ ⟨v', a', b'⟩ h
  simp only [inUnits, Block.mk.injEq] at h ⊢
  obtain ⟨hv, ha, hb⟩ := h
  exact ⟨hv, by omega, by omega⟩

/-- Where no bound overflows, what `show_bit_map_range` prints is in bytes. -/
theorem map_inUnits {f : Nat → Bool} {start stop : Nat} {bs : List (Block Bool)} (h : IsBlocks f stop start bs)
    (hstop : 4096 * stop < 2 ^ 64) : bs.map (inUnits (mul64 · defaultPageSize)) = bs.map (inUnits (4096 * ·)) := by
  refine List.map_congr_left fun b hb => ?_
  obtain ⟨hlt, hle⟩ := h.mem_le hb
  unfold defaultPageSize
  have hscale : ∀ {x}, x ≤ stop → mul64 x 4096 = 4096 * x := by
    intro x hx
    rw [Nat.mul_comm 4096 x]
    refine mul64_of_lt ?_
    rw [Nat.mul_comm]
    omega
  simp only [inUnits, hscale hle, hscale (hlt.le.trans hle)]

/-- The check lets the slice of a region pass. -/
theorem Shaped.showBitMapRange_view {mmap : MemMap} (h : Shaped mmap) {r : MemRegion} (hr : r ∈ mmap.regions) :
    ∃ bs, IsBlocks mmap.bitmap.bit r.frames r.bitmapStartAddr bs ∧
      (showBitMapRange mmap.bitmap r.bitmapStartAddr (r.lenBytes / defaultPageSize)).2 =
        bs.map (inUnits (4096 * ·)) := by
  obtain ⟨bs, hblocks, hshown⟩ :=
    showBlocks_spec (mul64 · defaultPageSize) mmap.bitmap r.bitmapStartAddr r.frames
  have hslice := h.slice_le hr
  have hwords := h.qwordCount_eq hr
  have hsize := h.size_lt
  have haddr := h.addr r hr
  have hlen : 4096 * r.frames < 2 ^ 64 := by
    rw [← h.len_eq hr]
    omega
  have hpass : ¬(r.bitmapStartAddr > mmap.bitmap.size ∨ r.frames > sub64 mmap.bitmap.size r.bitmapStartAddr) := by
    rw [sub64_of_le (by omega) (by omega)]
    omega
  refine ⟨bs, hblocks, ?_⟩
  rw [← map_inUnits hblocks hlen, ← hshown, showBitMapRange, ← MemRegion.frames, if_neg hpass]

/-- What is shown for a slice goes up to the index that is its length, and so is the slice when it begins at the first
bit. -/
theorem Shaped.view_iff {mmap : MemMap} (h : Shaped mmap) {r : MemRegion} (hr : r ∈ mmap.regions)
    {view : List (Block Bool)}
    (hview : view = (showBitMapRange mmap.bitmap r.bitmapStartAddr (r.lenBytes / defaultPageSize)).2) :
    Views mmap.bitmap r.bitmapStartAddr r.frames view ∧
      (Views mmap.bitmap r.bitmapStartAddr (r.bitmapStartAddr + r.frames) view ↔ r.bitmapStartAddr = 0) := by
  have hframes := h.frames_pos hr
  obtain ⟨bs, hblocks, hshown⟩ := h.showBitMapRange_view hr
  rw [hshown] at hview
  refine ⟨⟨bs, hblocks, hview⟩, ?_⟩
  constructor
  · rintro ⟨bs', hblocks', hview'⟩
    have hbs : bs = bs' := (List.map_injective_iff.2 inUnits_injective) (hview.symm.trans hview')
    rw [← hbs] at hblocks'
    by_cases hle : r.bitmapStartAddr ≤ r.frames
    · have := hblocks.stop_eq hblocks' hle (Nat.le_add_right _ _)
      omega
    · -- nothing at all was shown
      cases bs with
      | nil =>
        have hend : r.bitmapStartAddr + r.frames ≤ r.bitmapStartAddr := hblocks'
        omega
      | cons b bs =>
        obtain ⟨-, hlt, hstop, -⟩ := hblocks
        omega
  · intro hzero
    rw [hzero, Nat.zero_add]
    rw [hzero] at hblocks
    exact ⟨bs, hblocks, hview⟩

/-- The verbose view of a region shows the blocks from its first bit up to the index that is its number of frames; so it is
that of its own frames for the first region only. -/
theorem show_mem_map_iff {mmap : MemMap} (h : Shaped mmap) {i : Nat} (hi : i < mmap.regions.length) :
    ∃ shown, (showMemMap mmap true)[i]? = some shown ∧
      let r := mmap.regions[i]
      Views mmap.bitmap r.bitmapStartAddr r.frames shown.view ∧
        (Views mmap.bitmap r.bitmapStartAddr (r.bitmapStartAddr + r.frames) shown.view ↔ i = 0) := by
  unfold showMemMap
  rw [List.getElem?_mapIdx, List.getElem?_eq_getElem hi, Option.map_some]
  refine ⟨_, rfl, ?_⟩
  dsimp only
  rw [if_pos rfl, ← h.slice_start hi]
  exact h.view_iff (List.getElem_mem hi) rfl

/-- A region of one frame, and one of 80. -/
def oneAndEighty : MemMap where
  memSize := 0x51000
  regions := [⟨0x1000, 0x1000, 0, 1, 1⟩, ⟨0x100000, 0x50000, 64, 2, 80⟩]
  bitmap := ⟨192, fun _ => 0⟩

theorem oneAndEighty_shaped : Shaped oneAndEighty := by
  constructor <;> unfold oneAndEighty
  · decide
  · simp
  · simp [defaultPageSize]
  · simp [defaultPageSize]
  · simp
  · simp
  · simp [LaidOut, MemRegion.frames, defaultPageSize]

theorem show_mem_map_iff_second :
    ∃ shown, (showMemMap oneAndEighty true)[1]? = some shown ∧ Views oneAndEighty.bitmap 64 80 shown.view ∧
      ¬Views oneAndEighty.bitmap 64 144 shown.view := by
  obtain ⟨shown, hshown, hviews, hown⟩ :=
    show_mem_map_iff oneAndEighty_shaped (i := 1) (by unfold oneAndEighty; exact Nat.lt_succ_self 1)
  exact ⟨shown, hshown, hviews, fun h => absurd (hown.1 h) Nat.one_ne_zero⟩

end Icarus.Memory
