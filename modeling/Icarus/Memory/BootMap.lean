/-
The frame map at boot: registration of the available ranges, and `zero_mem_map`, which clears the bitmap but
passes bit indices where `set_mem_region` takes addresses, so the padding of the slices stays clear.
-/
import Icarus.Memory.FrameMap

namespace Icarus.Memory

open Icarus.Base

/-! ## Registration -/

/-- A map without regions; what lies behind it in memory is not cleared. -/
def emptyMap (data : Mem) : MemMap := ⟨0, [], ⟨0, data⟩⟩

/-- `memmap_register_region` for one range after the other. -/
def registerAll (mmap : MemMap) (ranges : List (Nat × Nat)) : MemMap :=
  ranges.foldl (fun mmap r => memmapRegisterRegion mmap r.1 r.2) mmap

/-- Ascending, disjoint and non-empty page-aligned ranges, no more than the map has room for. -/
structure RangesOK (ranges : List (Nat × Nat)) : Prop where
  count : ranges.length ≤ maxMemRegions
  nonempty : ∀ r ∈ ranges, r.1 < r.2
  aligned : ∀ r ∈ ranges, r.1 % defaultPageSize = 0 ∧ r.2 % defaultPageSize = 0
  bounded : ∀ r ∈ ranges, r.2 < 2 ^ 64
  ascending : ranges.Pairwise fun a b => a.2 ≤ b.1

/-- A region of which nothing has been taken. -/
def MemRegion.Fresh (r : MemRegion) : Prop := r.freeFrames = r.frames

/-- The region a range becomes. -/
def newRegion (size start stop : Nat) : MemRegion :=
  ⟨start, stop - start, size, ((stop - start) / defaultPageSize + 63) / 64, (stop - start) / defaultPageSize⟩

theorem emptyMap_shaped (data : Mem) : Shaped (emptyMap data) :=
  ⟨Nat.zero_le _, by simp [emptyMap], by simp [emptyMap], by simp [emptyMap], by simp [emptyMap],
    List.Pairwise.nil, rfl⟩

theorem LaidOut.append {size : Nat} {post : List MemRegion} : ∀ {base : Nat} {pre : List MemRegion},
    LaidOut size base (pre ++ post) ↔ ∃ mid, LaidOut mid base pre ∧ LaidOut size mid post
  | base, [] => ⟨fun h => ⟨base, rfl, h⟩, fun ⟨_, h, h'⟩ => by cases h; exact h'⟩
  | base, r :: pre => by
    simp only [List.cons_append, LaidOut, LaidOut.append]
    constructor
    · rintro ⟨h1, h2, mid, h3, h4⟩
      exact ⟨mid, ⟨h1, h2, h3⟩, h4⟩
    · rintro ⟨mid, ⟨h1, h2, h3⟩, h4⟩
      exact ⟨h1, h2, mid, h3, h4⟩

section
variable {mmap : MemMap} {start stop : Nat}

/-- The slices end where the next one starts. -/
theorem Shaped.next_slice (h : Shaped mmap) :
    (mmap.regions.getLast? = none ∧ mmap.bitmap.size = 0) ∨
      ∃ prev, mmap.regions.getLast? = some prev ∧
        add64 prev.bitmapStartAddr (mul64 prev.qwordCount 64) = mmap.bitmap.size := by
  have hlaid := h.laidOut
  have hsize := h.size_lt
  rcases List.eq_nil_or_concat mmap.regions with hnil | ⟨pre, prev, hcat⟩
  · rw [hnil] at hlaid ⊢
    exact Or.inl ⟨rfl, hlaid⟩
  · rw [List.concat_eq_append] at hcat
    rw [hcat] at hlaid ⊢
    obtain ⟨mid, -, h1, -, h3⟩ := LaidOut.append.1 hlaid
    have h3 : mmap.bitmap.size = mid + 64 * prev.qwordCount := h3
    refine Or.inr ⟨prev, by simp, ?_⟩
    rw [mul64_of_lt (by omega), add64_of_lt (by omega)]
    omega

theorem memmapRegisterRegion_eq (h : Shaped mmap) (hne : start < stop) (hstop : stop < 2 ^ 64) :
    memmapRegisterRegion mmap start stop =
      { memSize := add64 mmap.memSize (stop - start)
        regions := mmap.regions ++ [newRegion mmap.bitmap.size start stop]
        bitmap :=
          ⟨mmap.bitmap.size + 64 * (newRegion mmap.bitmap.size start stop).qwordCount, mmap.bitmap.data⟩ } := by
  have hsize := h.size_lt
  have hround : alignUp ((stop - start) / 4096) 64 / 64 = ((stop - start) / 4096 + 63) / 64 := by
    rw [show alignUp ((stop - start) / 4096) 64 = ((stop - start) / 4096 + (2 ^ 6 - 1)) / 2 ^ 6 * 2 ^ 6 from
      alignUp_two_pow (k := 6) (by decide) (by omega)]
    omega
  unfold memmapRegisterRegion newRegion defaultPageSize
  rw [sub64_of_le (le_of_lt hne) hstop]
  simp only [hround]
  rw [mul64_of_lt (by omega), add64_of_lt (b := _ * 64) (by omega), Nat.mul_comm _ 64]
  rcases h.next_slice with ⟨hlast, hslice⟩ | ⟨prev, hlast, hslice⟩
  · rw [hlast, hslice]
  · rw [hlast]
    simp only [hslice]

/-- Registration of a range behind the others keeps the shape. -/
theorem Shaped.register (h : Shaped mmap) (hcount : mmap.regions.length < maxMemRegions) (hne : start < stop)
    (hal : start % defaultPageSize = 0 ∧ stop % defaultPageSize = 0) (hstop : stop < 2 ^ 64)
    (hafter : ∀ r ∈ mmap.regions, r.startAddr + r.lenBytes ≤ start) :
    Shaped (memmapRegisterRegion mmap start stop) := by
  rw [memmapRegisterRegion_eq h hne hstop]
  have hcases : ∀ r ∈ mmap.regions ++ [newRegion mmap.bitmap.size start stop],
      r ∈ mmap.regions ∨ r = newRegion mmap.bitmap.size start stop := by
    intro r hr
    rcases List.mem_append.1 hr with hr | hr
    · exact Or.inl hr
    · exact Or.inr (List.mem_singleton.1 hr)
  unfold defaultPageSize at hal
  refine ⟨?_, fun r hr => ?_, fun r hr => ?_, fun r hr => ?_, fun r hr => ?_, ?_, ?_⟩
  · rw [List.length_append]
    exact hcount
  · rcases hcases r hr with hr | rfl
    · exact h.nonempty r hr
    · exact Nat.sub_pos_of_lt hne
  · rcases hcases r hr with hr | rfl
    · exact h.startAligned r hr
    · exact hal.1
  · rcases hcases r hr with hr | rfl
    · exact h.lenAligned r hr
    · show (stop - start) % 4096 = 0
      omega
  · rcases hcases r hr with hr | rfl
    · exact h.addr r hr
    · show start + (stop - start) < 2 ^ 64
      omega
  · refine List.pairwise_append.2 ⟨h.ascending, List.pairwise_singleton _ _, fun a ha b hb => ?_⟩
    obtain rfl := List.mem_singleton.1 hb
    exact hafter a ha
  · exact LaidOut.append.2 ⟨_, h.laidOut, rfl, rfl, rfl⟩

end

/-- What registration leaves: the regions are the ranges, with nothing taken. -/
structure Registered (ranges : List (Nat × Nat)) (mmap : MemMap) : Prop where
  shaped : Shaped mmap
  fresh : ∀ r ∈ mmap.regions, r.Fresh
  ranges : mmap.regions.map (fun r => (r.startAddr, r.startAddr + r.lenBytes)) = ranges

theorem RangesOK.left {a b : List (Nat × Nat)} (h : RangesOK (a ++ b)) : RangesOK a := by
  have hcount := h.count
  rw [List.length_append] at hcount
  exact ⟨by omega, fun r hr => h.nonempty r (List.mem_append_left _ hr),
    fun r hr => h.aligned r (List.mem_append_left _ hr), fun r hr => h.bounded r (List.mem_append_left _ hr),
    (List.pairwise_append.1 h.ascending).1⟩

theorem Registered.next {done : List (Nat × Nat)} {mmap : MemMap} {start stop : Nat} (h : Registered done mmap)
    (hok : RangesOK (done ++ [(start, stop)])) :
    Registered (done ++ [(start, stop)]) (memmapRegisterRegion mmap start stop) := by
  have hmem : (start, stop) ∈ done ++ [(start, stop)] := by simp
  have hne := hok.nonempty _ hmem
  have hal := hok.aligned _ hmem
  have hstop := hok.bounded _ hmem
  have hlen : mmap.regions.length = done.length := by rw [← h.ranges, List.length_map]
  have hcount := hok.count
  rw [List.length_append, List.length_singleton] at hcount
  have hafter : ∀ r ∈ mmap.regions, r.startAddr + r.lenBytes ≤ start := by
    intro r hr
    have hin : (r.startAddr, r.startAddr + r.lenBytes) ∈ done := by
      rw [← h.ranges]
      exact List.mem_map.2 ⟨r, hr, rfl⟩
    exact (List.pairwise_append.1 hok.ascending).2.2 _ hin _ (List.mem_singleton_self _)
  refine ⟨h.shaped.register (by omega) hne hal hstop hafter, ?_, ?_⟩
  · rw [memmapRegisterRegion_eq h.shaped hne hstop]
    intro r hr
    rcases List.mem_append.1 hr with hr | hr
    · exact h.fresh r hr
    · rw [List.mem_singleton.1 hr]
      rfl
  · rw [memmapRegisterRegion_eq h.shaped hne hstop, List.map_append, h.ranges]
    simp only [newRegion, List.map_cons, List.map_nil]
    rw [Nat.add_sub_cancel' (le_of_lt hne)]

theorem Registered.registerAll {done : List (Nat × Nat)} : ∀ {ranges : List (Nat × Nat)} {mmap : MemMap},
    Registered done mmap → RangesOK (done ++ ranges) → Registered (done ++ ranges) (registerAll mmap ranges)
  | [], mmap, h, _ => by rwa [List.append_nil]
  | (start, stop) :: ranges, mmap, h, hok => by
    have happ : done ++ (start, stop) :: ranges = done ++ [(start, stop)] ++ ranges := by simp
    rw [happ] at hok ⊢
    exact Registered.registerAll (h.next hok.left) hok

/-- Registration of well-formed ranges on an empty map. -/
theorem registered_empty {ranges : List (Nat × Nat)} (h : RangesOK ranges) (data : Mem) :
    Registered ranges (registerAll (emptyMap data) ranges) := by
  have hempty : Registered [] (emptyMap data) := ⟨emptyMap_shaped data, by simp [emptyMap], rfl⟩
  exact hempty.registerAll h

/-! ## What a call of `set_mem_region` can change -/

/-- A region without its count, the only field that changes after registration. -/
def MemRegion.static (r : MemRegion) : MemRegion := { r with freeFrames := 0 }

theorem MemRegion.of_static {r r' : MemRegion} (h : r'.static = r.static) :
    r'.startAddr = r.startAddr ∧ r'.lenBytes = r.lenBytes ∧ r'.bitmapStartAddr = r.bitmapStartAddr ∧
      r'.qwordCount = r.qwordCount := by
  unfold MemRegion.static at h
  rw [MemRegion.mk.injEq] at h
  exact ⟨h.1, h.2.1, h.2.2.1, h.2.2.2.1⟩

/-- The same regions up to the counts, and a bitmap of the same size. -/
def SameRegions (a b : MemMap) : Prop :=
  a.bitmap.size = b.bitmap.size ∧ a.regions.map MemRegion.static = b.regions.map MemRegion.static

theorem SameRegions.refl (a : MemMap) : SameRegions a a := ⟨rfl, rfl⟩

theorem SameRegions.symm {a b : MemMap} (h : SameRegions a b) : SameRegions b a := ⟨h.1.symm, h.2.symm⟩

theorem SameRegions.trans {a b c : MemMap} (h : SameRegions a b) (h' : SameRegions b c) : SameRegions a c :=
  ⟨h.1.trans h'.1, h.2.trans h'.2⟩

/-- A region of one map is a region of the other, with another count. -/
theorem SameRegions.mem {a b : MemMap} (h : SameRegions a b) {r : MemRegion} (hr : r ∈ a.regions) :
    ∃ r' ∈ b.regions, r'.static = r.static := by
  have hin : r.static ∈ b.regions.map MemRegion.static := by
    rw [← h.2]
    exact List.mem_map.2 ⟨r, hr, rfl⟩
  exact List.mem_map.1 hin

theorem static_set {regions : List MemRegion} {i c : Nat} :
    (regions.set i { regions.getD i default with freeFrames := c }).map MemRegion.static =
      regions.map MemRegion.static := by
  apply List.ext_getElem
  · simp
  · intro j h1 h2
    simp only [List.length_map, List.length_set] at h1 h2
    rw [List.getElem_map, List.getElem_map, List.getElem_set]
    split_ifs with hij
    · subst hij
      rw [List.getD_eq_getElem _ _ h2]
      rfl
    · rfl

theorem bitmapWriteLen_size {writeBit : BitVec 8 → Nat → BitVec 8} {wholeByte : BitVec 8} (map : BitMap)
    (start len : Nat) : (bitmapWriteLen writeBit wholeByte map start len).2.size = map.size := by
  unfold bitmapWriteLen
  split_ifs <;> rfl

theorem setMemRegion_same (mmap : MemMap) (a b : Nat) : SameRegions (setMemRegion mmap a b).2 mmap := by
  unfold setMemRegion updateRange
  split_ifs
  · exact SameRegions.refl _
  · cases mmap.regions.findIdx? (·.holds a b) with
    | none => exact SameRegions.refl _
    | some i => exact ⟨bitmapWriteLen_size .., static_set⟩

/-- The bits of a slice that a call with the addresses `[a, b)` sets, in the first region that holds them. -/
def CallSets (regions : List MemRegion) (a b j : Nat) : Prop :=
  ∃ r, regions.find? (·.holds a b) = some r ∧
    add64 r.bitmapStartAddr (sub64 a r.startAddr / defaultPageSize) ≤ j ∧
    j < add64 r.bitmapStartAddr (sub64 a r.startAddr / defaultPageSize) + sub64 b a / defaultPageSize

theorem bitmapSetLen_refused {map : BitMap} (hsize : map.size < 2 ^ 63) {start len : Nat}
    (hout : ¬start + len ≤ map.size) : bitmapSetLen map start len = (-1, map) := by
  unfold bitmapSetLen bitmapWriteLen
  rw [if_pos]
  by_cases hs : start ≤ map.size
  · rw [sub64_of_le hs (by omega)]
    omega
  · omega

/-- A bit that is set stays set. -/
theorem bitmapSetLen_marks {map : BitMap} (hsize : map.size < 2 ^ 63) {start len j : Nat} (h : map.bit j = true) :
    (bitmapSetLen map start len).2.bit j = true := by
  by_cases hin : start + len ≤ map.size
  · obtain ⟨data, heq, hd⟩ := bitmapSetLen_spec hsize hin
    rw [heq]
    refine (hd j).trans ?_
    split_ifs
    · rfl
    · exact h
  · rwa [bitmapSetLen_refused hsize hin]

theorem bitmapSetLen_bit {map : BitMap} (hsize : map.size < 2 ^ 63) {start len j : Nat}
    (h : (bitmapSetLen map start len).2.bit j = true) : map.bit j = true ∨ start ≤ j ∧ j < start + len := by
  by_cases hin : start + len ≤ map.size
  · obtain ⟨data, heq, hd⟩ := bitmapSetLen_spec hsize hin
    rw [heq] at h
    have hj := hd j
    rw [show data.bit j = true from h] at hj
    split_ifs at hj with hrange
    · exact Or.inr hrange
    · exact Or.inl hj.symm
  · rw [bitmapSetLen_refused hsize hin] at h
    exact Or.inl h

/-- The counts do not decide which region holds a range. -/
theorem find_holds_static (regions : List MemRegion) (a b : Nat) :
    (regions.map MemRegion.static).find? (·.holds a b) =
      (regions.find? (·.holds a b)).map MemRegion.static := by
  rw [List.find?_map]
  rfl

theorem CallSets.same {m m' : MemMap} (h : SameRegions m m') {a b j : Nat} (hc : CallSets m.regions a b j) :
    CallSets m'.regions a b j := by
  obtain ⟨r, hf, h1, h2⟩ := hc
  have hs : (m'.regions.map MemRegion.static).find? (·.holds a b) = some r.static := by
    rw [← h.2, find_holds_static, hf]
    rfl
  rw [find_holds_static, Option.map_eq_some_iff] at hs
  obtain ⟨r', hf', hr⟩ := hs
  obtain ⟨hstart, -, hslice, -⟩ := MemRegion.of_static hr
  refine ⟨r', hf', ?_, ?_⟩
  · rwa [hstart, hslice]
  · rwa [hstart, hslice]

theorem setMemRegion_bit {mmap : MemMap} (hsize : mmap.bitmap.size < 2 ^ 63) {a b j : Nat}
    (h : (setMemRegion mmap a b).2.bitmap.bit j = true) :
    mmap.bitmap.bit j = true ∨ CallSets mmap.regions a b j := by
  unfold setMemRegion updateRange at h
  split_ifs at h
  · exact Or.inl h
  · cases hi : mmap.regions.findIdx? (·.holds a b) with
    | none =>
      rw [hi] at h
      exact Or.inl h
    | some i =>
      rw [hi] at h
      rcases bitmapSetLen_bit hsize h with hold | hnew
      · exact Or.inl hold
      · refine Or.inr ⟨mmap.regions.getD i default, ?_, hnew⟩
        rw [List.findIdx?_eq_some_iff_getElem] at hi
        obtain ⟨hlt, hholds, hbefore⟩ := hi
        rw [List.getD_eq_getElem _ _ hlt, List.find?_eq_some_iff_getElem]
        exact ⟨hholds, i, hlt, rfl, fun k hk => by simpa using hbefore k hk⟩

theorem laidOut_static {size : Nat} : ∀ {base : Nat} {rs : List MemRegion},
    LaidOut size base (rs.map MemRegion.static) ↔ LaidOut size base rs
  | _, [] => Iff.rfl
  | _, _ :: _ => and_congr Iff.rfl (and_congr Iff.rfl laidOut_static)

/-- The shape of a map does not depend on its counts. -/
theorem Shaped.same {a b : MemMap} (h : Shaped a) (hs : SameRegions a b) : Shaped b := by
  have hlen : b.regions.length = a.regions.length := by
    rw [← List.length_map (f := MemRegion.static), ← hs.2, List.length_map]
  have hall : ∀ {P : Nat → Nat → Prop}, (∀ r ∈ a.regions, P r.startAddr r.lenBytes) →
      ∀ r ∈ b.regions, P r.startAddr r.lenBytes := by
    intro P ha r hr
    obtain ⟨r', hr', heq⟩ := hs.symm.mem hr
    obtain ⟨h1, h2, -⟩ := MemRegion.of_static heq
    have hP := ha r' hr'
    rwa [h1, h2] at hP
  have hasc := h.ascending
  have hlaid := h.laidOut
  rw [← laidOut_static, hs.2, laidOut_static, hs.1] at hlaid
  refine ⟨by rw [hlen]; exact h.capacity, hall (P := fun _ l => 0 < l) h.nonempty,
    hall (P := fun s _ => s % defaultPageSize = 0) h.startAligned,
    hall (P := fun _ l => l % defaultPageSize = 0) h.lenAligned, hall (P := fun s l => s + l < 2 ^ 64) h.addr, ?_,
    hlaid⟩
  have hmap : (a.regions.map MemRegion.static).Pairwise fun x y => x.startAddr + x.lenBytes ≤ y.startAddr :=
    List.pairwise_map.2 hasc
  rw [hs.2] at hmap
  exact List.pairwise_map.1 hmap

/-! ## `zero_mem_map` -/

/-- Where the range starts that `zero_mem_map` passes for the padding of a region. -/
def paddingStart (region : MemRegion) : Nat := add64 region.bitmapStartAddr region.lenBytes

/-- Where it ends. -/
def paddingStop (region : MemRegion) : Nat :=
  add64 region.bitmapStartAddr (mul64 (mul64 region.qwordCount 64) defaultPageSize)

/-- One round of `zero_mem_map`, for region `i`. -/
def zeroMemMapRound (i : Nat) (mmap : MemMap) : MemMap :=
  let region := mmap.regions.getD i default
  let frCount := region.freeFrames
  let mmap := (setMemRegion mmap (paddingStart region) (paddingStop region)).2
  -- restore frame count
  { mmap with regions := mmap.regions.set i { mmap.regions.getD i default with freeFrames := frCount } }

/-- The loop of `zero_mem_map` from region `i` on. -/
def zeroMemMapLoop : (remaining i : Nat) → MemMap → MemMap
  | 0, _, mmap => mmap
  | remaining + 1, i, mmap => zeroMemMapLoop remaining (i + 1) (zeroMemMapRound i mmap)

/-- The bitmap with all its bytes cleared. -/
def clearedMap (mmap : MemMap) : MemMap :=
  { mmap with bitmap := { mmap.bitmap with data := mmap.bitmap.data.fill 0 (mmap.bitmap.size / 8) 0 } }

/-- `zero_mem_map`. -/
def zeroMemMap (mmap : MemMap) : MemMap := zeroMemMapLoop mmap.regions.length 0 (clearedMap mmap)

theorem zeroMemMapRound_same (i : Nat) (mmap : MemMap) : SameRegions (zeroMemMapRound i mmap) mmap := by
  refine SameRegions.trans ?_ (setMemRegion_same mmap (paddingStart (mmap.regions.getD i default))
    (paddingStop (mmap.regions.getD i default)))
  exact ⟨rfl, static_set⟩

theorem zeroMemMapLoop_same : ∀ (remaining i : Nat) (mmap : MemMap), SameRegions (zeroMemMapLoop remaining i mmap) mmap
  | 0, _, mmap => SameRegions.refl mmap
  | remaining + 1, i, mmap =>
    (zeroMemMapLoop_same remaining (i + 1) _).trans (zeroMemMapRound_same i mmap)

theorem zeroMemMap_same (mmap : MemMap) : SameRegions (zeroMemMap mmap) mmap :=
  zeroMemMapLoop_same _ 0 (clearedMap mmap)

/-- A bit that is set after the loop was set before it, or by the call for one of the regions. -/
theorem zeroMemMapLoop_bit {j : Nat} : ∀ (remaining i : Nat) (mmap : MemMap), mmap.bitmap.size < 2 ^ 63 →
    i + remaining = mmap.regions.length → (zeroMemMapLoop remaining i mmap).bitmap.bit j = true →
    mmap.bitmap.bit j = true ∨
      ∃ c ∈ mmap.regions, CallSets mmap.regions (paddingStart c) (paddingStop c) j
  | 0, _, mmap, _, _, h => Or.inl h
  | remaining + 1, i, mmap, hsize, hlen, h => by
    have hsame := zeroMemMapRound_same i mmap
    have hlen' := congrArg List.length hsame.2
    rw [List.length_map, List.length_map] at hlen'
    rcases zeroMemMapLoop_bit remaining (i + 1) _ (by rw [hsame.1]; exact hsize) (by rw [hlen']; omega) h
      with hold | ⟨c, hc, hset⟩
    · rcases setMemRegion_bit hsize hold with hold | hset
      · exact Or.inl hold
      · refine Or.inr ⟨_, ?_, hset⟩
        rw [List.getD_eq_getElem _ _ (by omega)]
        exact List.getElem_mem _
    · obtain ⟨c', hc', heq⟩ := hsame.mem hc
      obtain ⟨-, h2, h3, h4⟩ := MemRegion.of_static heq
      refine Or.inr ⟨c', hc', ?_⟩
      unfold paddingStart paddingStop
      rw [h2, h3, h4]
      exact hset.same hsame

/-! ## The padding -/

section
variable {mmap : MemMap} {c x : MemRegion} {j : Nat}

/-- The slice of a region starts no later than one bit for each frame below it and `pad` for each region. -/
theorem Shaped.slice_start_le (h : Shaped mmap) {pre post : List MemRegion} (hr : mmap.regions = pre ++ c :: post)
    {pad : Nat} (hpad : ∀ y ∈ pre, 64 * y.qwordCount ≤ y.frames + pad) :
    4096 * c.bitmapStartAddr ≤ c.startAddr + 4096 * (pad * pre.length) := by
  have hlaid := h.laidOut
  have hasc := h.ascending
  have hsub : ∀ y ∈ pre, y ∈ mmap.regions := fun y hy => by rw [hr]; exact List.mem_append_left _ hy
  rw [hr] at hlaid hasc
  obtain ⟨mid, hpre, hmid, -⟩ := LaidOut.append.1 hlaid
  obtain ⟨hasc, -, hbefore⟩ := List.pairwise_append.1 hasc
  have hbounds : ∀ y ∈ pre, 0 ≤ y.startAddr ∧ y.startAddr + y.lenBytes ≤ c.startAddr :=
    fun y hy => ⟨Nat.zero_le _, hbefore y hy c (List.mem_cons_self ..)⟩
  have htotal := hpre.total (fun y hy => h.lenAligned y (hsub y hy)) hpad hasc hbounds (Nat.zero_le _)
  omega

/-- The address `zero_mem_map` starts from: the index of a slice is far too small to make it wrap. -/
theorem Shaped.paddingStart_eq (h : Shaped mmap) (hc : c ∈ mmap.regions) :
    paddingStart c = c.bitmapStartAddr + c.lenBytes ∧ c.bitmapStartAddr + c.lenBytes < 2 ^ 64 ∧
      c.bitmapStartAddr < 2 ^ 53 := by
  obtain ⟨pre, post, hr⟩ := List.append_of_mem hc
  have hpad : ∀ y ∈ pre, 64 * y.qwordCount ≤ y.frames + 63 := by
    intro y hy
    have := h.qwordCount_eq (r := y) (by rw [hr]; exact List.mem_append_left _ hy)
    omega
  have hle := h.slice_start_le hr hpad
  have hcount := h.capacity
  rw [hr, List.length_append, List.length_cons] at hcount
  unfold maxMemRegions at hcount
  have haddr := h.addr c hc
  have hlen := h.len_eq hc
  have hstart := h.startAligned c hc
  unfold defaultPageSize at hstart
  refine ⟨?_, by omega, by omega⟩
  unfold paddingStart
  rw [add64_of_lt (by omega)]

theorem Shaped.paddingStop_eq (h : Shaped mmap) (hc : c ∈ mmap.regions) :
    paddingStop c = (c.bitmapStartAddr + 4096 * (64 * c.qwordCount)) % 2 ^ 64 := by
  have hq := h.qwordCount_eq hc
  have hlen := h.len_eq hc
  have haddr := h.addr c hc
  unfold paddingStop mul64 add64 u64 defaultPageSize
  omega

/-- A frame of a region is not padding. -/
theorem Shaped.frame_not_padding (h : Shaped mmap) {r : MemRegion} (hr : r ∈ mmap.regions) (hx : x ∈ mmap.regions)
    (h1 : r.bitmapStartAddr ≤ j) (h2 : j < r.bitmapStartAddr + r.frames) (h3 : x.bitmapStartAddr + x.frames ≤ j)
    (h4 : j < x.bitmapStartAddr + 64 * x.qwordCount) : False := by
  have hq := h.qwordCount_eq hr
  rcases h.apart hr hx with rfl | ⟨-, hb⟩ | ⟨-, hb⟩ <;> omega

/-- A call whose range does not wrap sets bits of frames only. -/
theorem Shaped.callSets_frame (h : Shaped mmap) (hc : c ∈ mmap.regions)
    (hfit : c.bitmapStartAddr + 4096 * (64 * c.qwordCount) < 2 ^ 64)
    (hset : CallSets mmap.regions (paddingStart c) (paddingStop c) j) :
    ∃ r ∈ mmap.regions, r.bitmapStartAddr ≤ j ∧ j < r.bitmapStartAddr + r.frames := by
  obtain ⟨r, hfind, h1, h2⟩ := hset
  have hmem := List.mem_of_find?_eq_some hfind
  have hholds := List.find?_some hfind
  have hend := endAddr_eq h hmem
  simp only [MemRegion.holds, Bool.not_eq_true', Bool.or_eq_false_iff, decide_eq_false_iff_not, hend] at hholds
  obtain ⟨hstart, hlt, -⟩ := h.paddingStart_eq hc
  have hstop := h.paddingStop_eq hc
  have hq := h.qwordCount_eq hc
  have hlen := h.len_eq hc
  have hlenr := h.len_eq hmem
  have hslice := h.slice_le hmem
  have hsize := h.size_lt
  rw [Nat.mod_eq_of_lt hfit] at hstop
  rw [hstart] at h1 h2 hholds
  rw [hstop] at h2 hholds
  unfold defaultPageSize at h1 h2
  rw [sub64_of_le (by omega) hlt, add64_of_lt (by omega)] at h1 h2
  rw [sub64_of_le (by omega) hfit] at h2
  exact ⟨r, hmem, by omega, by omega⟩

/-- A call whose range wraps sets as many bits as its region has padding. -/
theorem Shaped.callSets_wrapped (h : Shaped mmap) (hc : c ∈ mmap.regions)
    (hwrap : 2 ^ 64 ≤ c.bitmapStartAddr + 4096 * (64 * c.qwordCount))
    (hset : CallSets mmap.regions (paddingStart c) (paddingStop c) j) :
    ∃ r, mmap.regions.find? (·.holds (paddingStart c) (paddingStop c)) = some r ∧ r ∈ mmap.regions ∧
      r.startAddr ≤ c.bitmapStartAddr + c.lenBytes ∧
      r.bitmapStartAddr + (c.bitmapStartAddr + c.lenBytes - r.startAddr) / 4096 ≤ j ∧
      j < r.bitmapStartAddr + (c.bitmapStartAddr + c.lenBytes - r.startAddr) / 4096 +
        (64 * c.qwordCount - c.frames) := by
  obtain ⟨r, hfind, h1, h2⟩ := hset
  have hmem := List.mem_of_find?_eq_some hfind
  have hholds := List.find?_some hfind
  simp only [MemRegion.holds, Bool.not_eq_true', Bool.or_eq_false_iff, decide_eq_false_iff_not] at hholds
  obtain ⟨hstart, hlt, -⟩ := h.paddingStart_eq hc
  have hstop := h.paddingStop_eq hc
  have hq := h.qwordCount_eq hc
  have hlen := h.len_eq hc
  have hslice := h.slice_le hmem
  have hsize := h.size_lt
  rw [hstart] at h1 h2 hholds
  unfold defaultPageSize at h1 h2
  rw [sub64_of_le (by omega) hlt, add64_of_lt (by omega)] at h1 h2
  have hunits : sub64 (paddingStop c) (c.bitmapStartAddr + c.lenBytes) / 4096 = 64 * c.qwordCount - c.frames := by
    rw [hstop]
    unfold sub64 u64
    omega
  rw [hunits] at h2
  exact ⟨r, hfind, hmem, by omega, h1, h2⟩

/-- The address `zero_mem_map` stops at does not fit 64 bits. -/
def MemRegion.Wraps (c : MemRegion) : Prop := 2 ^ 64 ≤ c.bitmapStartAddr + 4096 * (64 * c.qwordCount)

/-- Such a region covers more than half of the address space. -/
theorem Shaped.wraps_unique (h : Shaped mmap) (hc : c ∈ mmap.regions) (hx : x ∈ mmap.regions) (hwc : c.Wraps)
    (hwx : x.Wraps) : x = c := by
  have hlarge : ∀ y ∈ mmap.regions, y.Wraps → 2 ^ 63 < y.lenBytes := by
    intro y hy hw
    obtain ⟨-, -, hslice⟩ := h.paddingStart_eq hy
    have hq := h.qwordCount_eq hy
    have hlen := h.len_eq hy
    unfold MemRegion.Wraps at hw
    omega
  have h1 := hlarge c hc hwc
  have h2 := hlarge x hx hwx
  have h3 := h.addr c hc
  have h4 := h.addr x hx
  rcases h.apart hx hc with heq | ⟨ha, -⟩ | ⟨ha, -⟩
  · exact heq
  · omega
  · omega

theorem Shaped.cleared_bit (h : Shaped mmap) (hx : x ∈ mmap.regions) (hj : j < 64 * x.qwordCount) :
    (clearedMap mmap).bitmap.bit (x.bitmapStartAddr + j) = false := by
  have hslice := h.slice_le hx
  have hal := h.slice_aligned hx
  unfold clearedMap BitMap.bit Mem.bit Mem.fill
  simp only
  rw [if_pos (by omega)]
  simp

/-- Padding can only have been set by a call whose range wraps. -/
theorem Shaped.padding_set (h : Shaped mmap) (hx : x ∈ mmap.regions) (h1 : x.frames ≤ j) (h2 : j < 64 * x.qwordCount)
    (hset : (zeroMemMap mmap).bitmap.bit (x.bitmapStartAddr + j) = true) :
    ∃ c ∈ mmap.regions, c.Wraps ∧
      CallSets mmap.regions (paddingStart c) (paddingStop c) (x.bitmapStartAddr + j) := by
  rcases zeroMemMapLoop_bit mmap.regions.length 0 (clearedMap mmap) h.size_lt (Nat.zero_add _) hset
    with hold | ⟨c, hc, hcall⟩
  · rw [h.cleared_bit hx h2] at hold
    exact absurd hold Bool.false_ne_true
  · refine ⟨c, hc, ?_, hcall⟩
    by_contra hfit
    obtain ⟨r, hr, hr1, hr2⟩ := h.callSets_frame hc (not_le.1 hfit) hcall
    exact h.frame_not_padding hr hx hr1 hr2 (by omega) (by omega)

/-- If all the padding is set and there is some, the only region starts at 0 and ends in the last 64 frames of
the address space. -/
theorem Shaped.only_region (h : Shaped mmap)
    (hset : ∀ y ∈ mmap.regions, ∀ k, y.frames ≤ k → k < 64 * y.qwordCount →
      (zeroMemMap mmap).bitmap.bit (y.bitmapStartAddr + k) = true)
    (hx : x ∈ mmap.regions) (hpad : x.frames % 64 ≠ 0) :
    ∃ c, mmap.regions = [c] ∧ c.startAddr = 0 ∧ 2 ^ 64 - 2 ^ 18 < c.lenBytes := by
  have hqx := h.qwordCount_eq hx
  obtain ⟨c, hc, hw, -⟩ := h.padding_set hx (le_refl _) (by omega) (hset x hx _ (le_refl _) (by omega))
  obtain ⟨-, hlt, hslice⟩ := h.paddingStart_eq hc
  have hq := h.qwordCount_eq hc
  have hlen := h.len_eq hc
  have haddr := h.addr c hc
  have hwc := hw
  unfold MemRegion.Wraps at hwc
  -- the one call that wraps sets all the padding there is
  have hcover : ∀ y ∈ mmap.regions, ∀ k, y.frames ≤ k → k < 64 * y.qwordCount →
      CallSets mmap.regions (paddingStart c) (paddingStop c) (y.bitmapStartAddr + k) := by
    intro y hy k h1 h2
    obtain ⟨c', hc', hw', hcall⟩ := h.padding_set hy h1 h2 (hset y hy k h1 h2)
    rwa [h.wraps_unique hc hc' hw hw'] at hcall
  obtain ⟨r, hfind, hr, hrs, hlow, -⟩ := h.callSets_wrapped hc hw (hcover c hc c.frames (le_refl _) (by omega))
  have hsets : ∀ j, CallSets mmap.regions (paddingStart c) (paddingStop c) j →
      j < r.bitmapStartAddr + (c.bitmapStartAddr + c.lenBytes - r.startAddr) / 4096 +
        (64 * c.qwordCount - c.frames) := by
    intro j hcall
    obtain ⟨r', hfind', -, -, -, hhigh⟩ := h.callSets_wrapped hc hw hcall
    rw [hfind, Option.some.injEq] at hfind'
    rwa [← hfind'] at hhigh
  have hhigh := hsets _ (hcover c hc (64 * c.qwordCount - 1) (by omega) (by omega))
  -- so its bits are the padding of its own region, and no other region has any
  have hothers : ∀ y ∈ mmap.regions, y ≠ c → 64 * y.qwordCount ≤ y.frames + 0 := by
    intro y hy hne
    by_contra hlt'
    have hqy := h.qwordCount_eq hy
    have hcall := hcover y hy y.frames (le_refl _) (by omega)
    obtain ⟨r', hfind', -, -, hlow', -⟩ := h.callSets_wrapped hc hw hcall
    rw [hfind, Option.some.injEq] at hfind'
    rw [← hfind'] at hlow'
    have hhigh' := hsets _ hcall
    rcases h.apart hy hc with heq | ⟨-, hb⟩ | ⟨-, hb⟩
    · exact hne heq
    · omega
    · omega
  obtain ⟨pre, post, hsplit⟩ := List.append_of_mem hc
  have hasc := h.ascending
  rw [hsplit] at hasc
  obtain ⟨-, hasc, hbefore⟩ := List.pairwise_append.1 hasc
  have hafter := (List.pairwise_cons.1 hasc).1
  have hlenc := h.nonempty c hc
  have hpre : ∀ y ∈ pre, y ∈ mmap.regions ∧ y ≠ c := by
    intro y hy
    refine ⟨by rw [hsplit]; exact List.mem_append_left _ hy, ?_⟩
    rintro rfl
    have := hbefore y hy y (List.mem_cons_self ..)
    omega
  have hpost : ∀ y ∈ post, y ∈ mmap.regions ∧ y ≠ c := by
    intro y hy
    refine ⟨by rw [hsplit]; exact List.mem_append_right _ (List.mem_cons_of_mem _ hy), ?_⟩
    rintro rfl
    have := hafter y hy
    omega
  -- whole words before it leave no room for a range that wraps, unless there is nothing before it
  have hwhole : ∀ y ∈ pre, 64 * y.qwordCount ≤ y.frames + 0 := fun y hy => hothers y (hpre y hy).1 (hpre y hy).2
  have hstart := h.slice_start_le hsplit hwhole
  have hal := h.slice_aligned hc
  have hzero : c.bitmapStartAddr = 0 := by omega
  have hnil : pre = [] := by
    rw [List.eq_nil_iff_forall_not_mem]
    intro y hy
    have hy' := (hpre y hy).1
    have hqy := h.qwordCount_eq hy'
    have hlen' := h.len_eq hy'
    have hne := h.nonempty y hy'
    have hlast := hbefore y hy c (List.mem_cons_self ..)
    rcases h.apart hy' hc with heq | ⟨-, hb⟩ | ⟨ha, -⟩
    · exact (hpre y hy).2 heq
    · omega
    · omega
  have hnil' : post = [] := by
    rw [List.eq_nil_iff_forall_not_mem]
    intro y hy
    have hy' := (hpost y hy).1
    have hfull := hothers y hy' (hpost y hy).2
    have hqy := h.qwordCount_eq hy'
    have hlen' := h.len_eq hy'
    have hne := h.nonempty y hy'
    have hnext := hafter y hy
    have hend := h.addr y hy'
    omega
  rw [hnil, hnil'] at hsplit
  refine ⟨c, hsplit, ?_, by omega⟩
  obtain rfl : r = c := by
    rw [hsplit] at hr
    exact List.mem_singleton.1 hr
  have hsal := h.startAligned r hc
  unfold defaultPageSize at hsal
  omega

/-! ## Maps without padding -/

/-- A call with an empty range changes nothing. -/
theorem setMemRegion_empty {a : Nat} (ha : a < 2 ^ 64) (hfree : ∀ r ∈ mmap.regions, r.freeFrames < 2 ^ 64) :
    (setMemRegion mmap a a).2 = mmap := by
  have hunits : sub64 a a / defaultPageSize = 0 := by
    rw [sub64_of_le (le_refl a) ha, Nat.sub_self]
    rfl
  have hwrite : ∀ (map : BitMap) (start : Nat), (bitmapSetLen map start 0).2 = map := by
    intro map start
    unfold bitmapSetLen bitmapWriteLen
    split_ifs <;> rfl
  unfold setMemRegion updateRange
  rw [hunits]
  split_ifs
  · rfl
  · cases hi : mmap.regions.findIdx? (·.holds a a) with
    | none => rfl
    | some i =>
      rw [List.findIdx?_eq_some_iff_getElem] at hi
      obtain ⟨hlt, -, -⟩ := hi
      dsimp only
      rw [hwrite, List.getD_eq_getElem _ _ hlt, sub64_of_le (Nat.zero_le _) (hfree _ (List.getElem_mem hlt)),
        Nat.sub_zero, List.set_getElem_self]

theorem zeroMemMapRound_empty (h : Shaped mmap) (hfree : ∀ r ∈ mmap.regions, r.freeFrames < 2 ^ 64)
    (hfull : ∀ r ∈ mmap.regions, r.frames % 64 = 0) {i : Nat} (hi : i < mmap.regions.length) :
    zeroMemMapRound i mmap = mmap := by
  have hmem := List.getElem_mem hi
  have hempty : paddingStop mmap.regions[i] = paddingStart mmap.regions[i] := by
    obtain ⟨hstart, hlt, -⟩ := h.paddingStart_eq hmem
    have hq := h.qwordCount_eq hmem
    have hlen := h.len_eq hmem
    have h64 := hfull _ hmem
    rw [h.paddingStop_eq hmem, hstart]
    omega
  unfold zeroMemMapRound
  rw [List.getD_eq_getElem _ _ hi]
  simp only [hempty]
  have ha : paddingStart mmap.regions[i] < 2 ^ 64 := Nat.mod_lt _ (by decide)
  rw [setMemRegion_empty ha hfree, List.getD_eq_getElem _ _ hi, List.set_getElem_self]

/-- Without padding `zero_mem_map` only clears the bitmap. -/
theorem zeroMemMap_full (h : Shaped mmap) (hfree : ∀ r ∈ mmap.regions, r.freeFrames < 2 ^ 64)
    (hfull : ∀ r ∈ mmap.regions, r.frames % 64 = 0) : zeroMemMap mmap = clearedMap mmap := by
  have hshape : Shaped (clearedMap mmap) := h.same ⟨rfl, rfl⟩
  have hloop : ∀ remaining i, i + remaining = mmap.regions.length →
      zeroMemMapLoop remaining i (clearedMap mmap) = clearedMap mmap := by
    intro remaining
    induction remaining with
    | zero => intro i _; rfl
    | succ remaining ih =>
      intro i hi
      have hlt : i < (clearedMap mmap).regions.length := by
        show i < mmap.regions.length
        omega
      rw [zeroMemMapLoop, zeroMemMapRound_empty hshape hfree hfull hlt]
      exact ih (i + 1) (by omega)
  exact hloop _ 0 (Nat.zero_add _)

/-- The one region that fills the address space: the range of the call wraps to that of the padding. -/
theorem zeroMemMap_whole (h : Shaped mmap) (hreg : mmap.regions = [c]) (hstart : c.startAddr = 0)
    (hlen : 2 ^ 64 - 2 ^ 18 < c.lenBytes) :
    ∃ data, zeroMemMap mmap = { mmap with bitmap := { mmap.bitmap with data := data } } ∧
      WrittenTo true (clearedMap mmap).bitmap.data c.frames (64 * c.qwordCount) data := by
  have hmem : c ∈ mmap.regions := by rw [hreg]; simp
  have hlaid := h.laidOut
  rw [hreg] at hlaid
  obtain ⟨hslice, hq, hsize⟩ := hlaid
  have hsize : mmap.bitmap.size = 0 + 64 * c.qwordCount := hsize
  have haddr := h.addr c hmem
  have hlen' := h.len_eq hmem
  obtain ⟨hA, -, -⟩ := h.paddingStart_eq hmem
  have hE := h.paddingStop_eq hmem
  rw [show (c.bitmapStartAddr + 4096 * (64 * c.qwordCount)) % 2 ^ 64 = 0 by omega] at hE
  rw [hslice, Nat.zero_add] at hA
  obtain ⟨data, heq, hd⟩ := @bitmapSetLen_spec (clearedMap mmap).bitmap c.frames (64 * c.qwordCount - c.frames)
    h.size_lt (by
      show _ ≤ mmap.bitmap.size
      omega)
  refine ⟨data, ?_, by rwa [Nat.add_sub_cancel' (by omega)] at hd⟩
  have hregions : (clearedMap mmap).regions = [c] := hreg
  have hend : c.endAddr = c.lenBytes := by rw [endAddr_eq h hmem, hstart, Nat.zero_add]
  have hfind : [c].findIdx? (·.holds c.lenBytes 0) = some 0 := by
    rw [List.findIdx?_cons, if_pos]
    simp [MemRegion.holds, hstart]
  have hunits : sub64 0 c.lenBytes / 4096 = 64 * c.qwordCount - c.frames := by
    unfold sub64 u64
    omega
  have hindex : add64 c.bitmapStartAddr (sub64 c.lenBytes c.startAddr / 4096) = c.frames := by
    rw [hslice, hstart, sub64_of_le (Nat.zero_le _) (by omega), add64_of_lt (by omega)]
    omega
  have hcall : setMemRegion (clearedMap mmap) (paddingStart c) (paddingStop c) =
      (0, { mmap with
        regions := [{ c with freeFrames := sub64 c.freeFrames (64 * c.qwordCount - c.frames) }]
        bitmap := { mmap.bitmap with data := data } }) := by
    rw [hA, hE]
    unfold setMemRegion updateRange defaultPageSize
    rw [hregions, hfind, hunits]
    rw [if_neg (by
      simp only [List.headD_cons, List.getLastD_cons, List.getLastD_nil]
      omega)]
    simp only [List.getD_cons_zero, List.set_cons_zero]
    rw [hindex, heq]
    rfl
  unfold zeroMemMap
  rw [hreg]
  show zeroMemMapRound 0 (clearedMap mmap) = _
  unfold zeroMemMapRound
  rw [hregions]
  simp only [List.getD_cons_zero]
  rw [hcall]
  simp only [List.getD_cons_zero, List.set_cons_zero]

end

/-! ## The bitmap at boot -/

/-- A bit of a slice is set exactly if it is padding, and the counts are those of the clear bits. -/
def BootExact (registered booted : MemMap) : Prop :=
  (∀ r ∈ registered.regions, ∀ j, j < 64 * r.qwordCount →
    (booted.bitmap.bit (r.bitmapStartAddr + j) = true ↔ r.frames ≤ j)) ∧
  ∀ r ∈ booted.regions, r.freeFrames = (freeBits booted.bitmap.data r).card

/-- The frames of every range fill whole words. -/
def NoPadding (ranges : List (Nat × Nat)) : Prop :=
  ∀ r ∈ ranges, (r.2 - r.1) / defaultPageSize % 64 = 0

/-- The only range starts at 0 and ends in the last 64 frames of the address space. -/
def WholeSpace (ranges : List (Nat × Nat)) : Prop :=
  ∃ stop, ranges = [(0, stop)] ∧ 2 ^ 64 - 2 ^ 18 < stop

/-- With the right bits the counts of fresh regions are right. -/
theorem freeBits_card {data : Mem} {r : MemRegion} (hle : r.frames ≤ 64 * r.qwordCount)
    (hbits : ∀ j, j < 64 * r.qwordCount → (data.bit (r.bitmapStartAddr + j) = true ↔ r.frames ≤ j)) :
    (freeBits data r).card = r.frames := by
  have heq : freeBits data r = Finset.range r.frames := by
    ext j
    rw [freeBits, Finset.mem_filter, Finset.mem_range, Finset.mem_range, ← Bool.not_eq_true]
    constructor
    · rintro ⟨hj, hclear⟩
      rw [hbits j hj] at hclear
      omega
    · intro hj
      have hlt : j < 64 * r.qwordCount := by omega
      refine ⟨hlt, ?_⟩
      rw [hbits j hlt]
      omega
  rw [heq, Finset.card_range]

theorem Registered.noPadding_iff {ranges : List (Nat × Nat)} {mmap : MemMap} (h : Registered ranges mmap) :
    NoPadding ranges ↔ ∀ r ∈ mmap.regions, r.frames % 64 = 0 := by
  unfold NoPadding
  rw [← h.ranges, List.forall_mem_map]
  simp only [Nat.add_sub_cancel_left]
  exact Iff.rfl

section
variable {ranges : List (Nat × Nat)} {mmap : MemMap}

theorem Registered.frames_le (h : Registered ranges mmap) {r : MemRegion} (hr : r ∈ mmap.regions) :
    r.frames ≤ 64 * r.qwordCount := by
  have hq := h.shaped.qwordCount_eq hr
  omega

/-- Without padding there is nothing to set. -/
theorem Registered.exact_of_full (h : Registered ranges mmap) (hfull : ∀ r ∈ mmap.regions, r.frames % 64 = 0) :
    BootExact mmap (zeroMemMap mmap) := by
  have hs := h.shaped
  have hfree : ∀ r ∈ mmap.regions, r.freeFrames < 2 ^ 64 := by
    intro r hr
    have haddr := hs.addr r hr
    have hlen := hs.len_eq hr
    rw [h.fresh r hr]
    omega
  have hbits : ∀ r ∈ mmap.regions, ∀ j, j < 64 * r.qwordCount →
      ((clearedMap mmap).bitmap.bit (r.bitmapStartAddr + j) = true ↔ r.frames ≤ j) := by
    intro r hr j hj
    have hq := hs.qwordCount_eq hr
    have h64 := hfull r hr
    rw [hs.cleared_bit hr hj]
    exact iff_of_false Bool.false_ne_true (by omega)
  rw [zeroMemMap_full hs hfree hfull]
  refine ⟨hbits, fun r hr => ?_⟩
  rw [freeBits_card (h.frames_le hr) (hbits r hr)]
  exact h.fresh r hr

/-- Where the one range fills the address space, the indices that are passed as addresses wrap around to the padding. -/
theorem Registered.exact_of_whole {stop : Nat} (h : Registered ranges mmap) (honly : ranges = [(0, stop)])
    (hlen : 2 ^ 64 - 2 ^ 18 < stop) : BootExact mmap (zeroMemMap mmap) := by
  have hs := h.shaped
  obtain ⟨c, hc, heq⟩ := List.map_eq_singleton_iff.1 (h.ranges.trans honly)
  rw [Prod.mk.injEq] at heq
  obtain ⟨hstart, hstop⟩ := heq
  rw [hstart, Nat.zero_add] at hstop
  obtain ⟨data, hzero, hd⟩ := zeroMemMap_whole hs hc hstart (by rw [hstop]; exact hlen)
  have hmem : c ∈ mmap.regions := by rw [hc]; simp
  have hslice : c.bitmapStartAddr = 0 := by
    have hlaid := hs.laidOut
    rw [hc] at hlaid
    exact hlaid.1
  have hbits : ∀ j, j < 64 * c.qwordCount → (data.bit (c.bitmapStartAddr + j) = true ↔ c.frames ≤ j) := by
    intro j hj
    rw [hd]
    split_ifs with hin
    · exact iff_of_true rfl (by omega)
    · have hclear : (clearedMap mmap).bitmap.data.bit (c.bitmapStartAddr + j) = false := hs.cleared_bit hmem hj
      rw [hclear]
      exact iff_of_false Bool.false_ne_true (by omega)
  rw [hzero]
  unfold BootExact
  simp only [hc, List.mem_singleton, forall_eq]
  exact ⟨hbits, by rw [freeBits_card (h.frames_le hmem) hbits]; exact h.fresh c hmem⟩

end

/-- The bitmap is as it should be exactly if no slice has padding, or the one range there is fills the address
space up to its last word. -/
theorem zero_mem_map_exact_iff {ranges : List (Nat × Nat)} (h : RangesOK ranges) (data : Mem) :
    BootExact (registerAll (emptyMap data) ranges) (zeroMemMap (registerAll (emptyMap data) ranges)) ↔
      NoPadding ranges ∨ WholeSpace ranges := by
  have hreg := registered_empty h data
  generalize registerAll (emptyMap data) ranges = mmap at hreg
  rw [hreg.noPadding_iff]
  constructor
  · intro hexact
    by_contra hnot
    push Not at hnot
    obtain ⟨⟨x, hx, hpad⟩, hwhole⟩ := hnot
    have hset : ∀ y ∈ mmap.regions, ∀ k, y.frames ≤ k → k < 64 * y.qwordCount →
        (zeroMemMap mmap).bitmap.bit (y.bitmapStartAddr + k) = true :=
      fun y hy k h1 h2 => (hexact.1 y hy k h2).2 h1
    obtain ⟨c, honly, hstart, hlen⟩ := hreg.shaped.only_region hset hx hpad
    refine hwhole ⟨c.lenBytes, ?_, hlen⟩
    rw [← hreg.ranges, honly, List.map_singleton, hstart, Nat.zero_add]
  · rintro (hfull | ⟨stop, honly, hlen⟩)
    · exact hreg.exact_of_full hfull
    · exact hreg.exact_of_whole honly hlen

theorem zero_mem_map_exact_iff_oneWord :
    BootExact (registerAll (emptyMap 0) [(0x100000, 0x140000)])
        (zeroMemMap (registerAll (emptyMap 0) [(0x100000, 0x140000)])) ↔
      NoPadding [(0x100000, 0x140000)] ∨ WholeSpace [(0x100000, 0x140000)] :=
  zero_mem_map_exact_iff ⟨by decide, by decide, by decide, by decide, by decide⟩ 0

/-- After a single frame the 63 bits of padding stay clear. -/
theorem zero_mem_map_leaves_padding :
    ¬BootExact (registerAll (emptyMap 0) [(0x100000, 0x101000)])
      (zeroMemMap (registerAll (emptyMap 0) [(0x100000, 0x101000)])) := by
  intro h
  have hmem : ⟨0x100000, 0x1000, 0, 1, 1⟩ ∈ (registerAll (emptyMap 0) [(0x100000, 0x101000)]).regions :=
    List.mem_singleton_self _
  have hset := (h.1 _ hmem 1 (by decide)).2 (by decide)
  revert hset
  decide +kernel

end Icarus.Memory
