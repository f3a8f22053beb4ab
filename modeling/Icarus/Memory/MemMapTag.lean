/-
The memory-map tag of the boot loader (memory_mapping.c): which regions `handle_mb2_mmap` makes of its entries,
and whether they fit the table of the frame map. The tag is read from the memory that the map is stored in, at
`_kernel_end`, while the loop goes on.
-/
import Icarus.Base.Traces
import Icarus.Memory.StoredMap

namespace Icarus.Memory

open Icarus.Base

/-! ## The tag -/

/-- `struct multiboot_mmap_entry`. -/
def multibootMmapEntry : List Member := [.u64, .u64, .u32, .u32]

/-- `struct multiboot_tag_mmap`. -/
def multibootTagMmap : List Member := [.u32, .u32, .u32, .u32, .array 0 (.struct multibootMmapEntry)]

@[simp] theorem entries_offset : offsetOf multibootTagMmap 4 = 16 := by decide

@[simp] theorem mmapSize_offset : offsetOf multibootTagMmap 1 = 4 := by decide

@[simp] theorem mmapEntrySize_offset : offsetOf multibootTagMmap 2 = 8 := by decide

/-- `mmap_tag->size`. -/
def mmapTagSize (m : Mem) (tag : Nat) : Nat := (m.load (tag + offsetOf multibootTagMmap 1) 4).toNat

/-- `mmap_tag->entry_size`. -/
def mmapEntrySize (m : Mem) (tag : Nat) : Nat := (m.load (tag + offsetOf multibootTagMmap 2) 4).toNat

/-- The entry at `e`. -/
def mmapEntryAt (m : Mem) (e : Nat) : MmapEntry where
  addr := (m.load (e + offsetOf multibootMmapEntry 0) 8).toNat
  len := (m.load (e + offsetOf multibootMmapEntry 1) 8).toNat
  type := (m.load (e + offsetOf multibootMmapEntry 2) 4).toNat

/-- The tag at `tag` holds these entries. -/
structure MmapTag (m : Mem) (tag : Nat) (entries : List MmapEntry) : Prop where
  stepped : 0 < mmapEntrySize m tag
  size : mmapTagSize m tag = 16 + mmapEntrySize m tag * entries.length
  entry : ∀ i (hi : i < entries.length), mmapEntryAt m (tag + 16 + mmapEntrySize m tag * i) = entries[i]
  addr : tag + mmapTagSize m tag < 2 ^ 64

/-! ## The intake -/

/-- `mem_size` grows to the end of an entry. -/
def growMemSize (mmap : Nat) (entry : MmapEntry) (m : Mem) : Mem :=
  if add64 entry.addr entry.len > memSizeAt m mmap then setMemSize m mmap (add64 entry.addr entry.len) else m

/-- The region of an entry, if it is available memory with whole pages; the event is its place in `regions`. -/
def intakeRange (mmap : Nat) (entry : MmapEntry) (m : Mem) : Run Nat Mem :=
  if entry.type = multibootMemoryAvailable then
    let start := alignUp entry.addr defaultPageSize
    let stop := alignDown (add64 entry.addr entry.len) defaultPageSize
    if stop > start then do
      .emit [regionCountAt m mmap]
      return registerRegion mmap start stop m
    else return m
  else return m

/-- The body of the loop of `handle_mb2_mmap`. -/
def intakeEntry (mmap e : Nat) (m : Mem) : Run Nat Mem :=
  let m := growMemSize mmap (mmapEntryAt m e) m
  -- the entry is read again behind the store to `mem_size`
  intakeRange mmap (mmapEntryAt m e) m

/-- A round of the loop, from the memory as it is and the entry it is at. -/
def intakeRound (mmap tag _fuel : Nat) (s : Mem × Nat) : Run Nat (Option (Mem × Nat)) := do
  if s.2 < add64 tag (mmapTagSize s.1 tag) then
    let m ← intakeEntry mmap s.2 s.1
    return some (m, add64 s.2 (mmapEntrySize m tag))
  else return none

/-- `handle_mb2_mmap` up to the end of its loop, with the map at `mmap`. -/
def intakeTag (mmap tag : Nat) (m : Mem) (fuel : Nat) : Run Nat (Mem × Nat) :=
  .loop (intakeRound mmap tag) fuel (startMap mmap m, add64 tag (offsetOf multibootTagMmap 4))

/-- `handle_mb2_mmap` behind its loop. -/
def reserveAndMap (fuel : Nat) (image : KernelImage) (pml4 : Nat) (m : Mem) : Except Fault (Int × Mem × MemMap) :=
  let (err, mmap) := reserveKernel image (mapAt m image.mapAddr)
  if err ≠ 0 then .ok (-1, m, mmap) else pageInRegions fuel pml4 mmap.regions m mmap

/-! ## One entry -/

/-- What is stored for an entry behind `mem_size`. -/
def storeRange (mmap : Nat) (entry : MmapEntry) (m : Mem) : Mem :=
  match entry.range with
  | some (start, stop) => registerRegion mmap start stop m
  | none => m

/-- What is stored for an entry. -/
def storeEntry (mmap : Nat) (m : Mem) (entry : MmapEntry) : Mem := storeRange mmap entry (growMemSize mmap entry m)

/-- The range of a region. -/
def MemRegion.bounds (r : MemRegion) : Nat × Nat := (r.startAddr, r.startAddr + r.lenBytes)

section
variable {mmap len : Nat} {m : Mem} {entry : MmapEntry}

theorem range_eq_some {start stop : Nat} (h : entry.range = some (start, stop)) :
    entry.type = multibootMemoryAvailable ∧ stop > start ∧ start = alignUp entry.addr defaultPageSize ∧
      stop = alignDown (add64 entry.addr entry.len) defaultPageSize := by
  unfold MmapEntry.range at h
  dsimp only at h
  split_ifs at h with hand
  cases h
  exact ⟨hand.1, hand.2, rfl, rfl⟩

/-- The indices that an entry stores to. -/
def storedIndices (mmap : Nat) (entry : MmapEntry) (m : Mem) : List Nat :=
  (entry.range.map fun _ => regionCountAt m mmap).toList

theorem range_eq_none (h : entry.range = none) (htype : entry.type = multibootMemoryAvailable) :
    ¬alignDown (add64 entry.addr entry.len) defaultPageSize > alignUp entry.addr defaultPageSize := by
  intro hne
  unfold MmapEntry.range at h
  dsimp only at h
  rw [if_pos ⟨htype, hne⟩] at h
  cases h

theorem intakeRange_eq (mmap : Nat) (entry : MmapEntry) (m : Mem) :
    intakeRange mmap entry m = ⟨storedIndices mmap entry m, .ok (storeRange mmap entry m)⟩ := by
  unfold intakeRange storedIndices storeRange
  rcases hr : entry.range with _ | ⟨start, stop⟩
  · dsimp only
    split_ifs with htype hne
    · exact absurd hne (range_eq_none hr htype)
    · rfl
    · rfl
  · obtain ⟨htype, hne, rfl, rfl⟩ := range_eq_some hr
    dsimp only
    rw [if_pos htype, if_pos hne]
    rfl

theorem growMemSize_outside (hlen : 1304 ≤ len) (entry : MmapEntry) :
    SameOutside mmap len m (growMemSize mmap entry m) := by
  unfold growMemSize
  split_ifs
  · exact setMemSize_outside hlen
  · exact SameOutside.refl _ _ _

@[simp] theorem regionCountAt_growMemSize : regionCountAt (growMemSize mmap entry m) mmap = regionCountAt m mmap := by
  unfold growMemSize
  split_ifs
  · exact regionCountAt_setMemSize
  · rfl

theorem storeRange_outside (hlen : 1304 ≤ len)
    (hi : entry.range = none ∨ 16 + 40 * (regionCountAt m mmap + 1) ≤ len) :
    SameOutside mmap len m (storeRange mmap entry m) := by
  unfold storeRange
  rcases hr : entry.range with _ | ⟨start, stop⟩
  · exact SameOutside.refl _ _ _
  · exact registerRegion_outside _ _ hlen (hi.resolve_left (by simp [hr]))

theorem storeEntry_outside (hlen : 1304 ≤ len)
    (hi : entry.range = none ∨ 16 + 40 * (regionCountAt m mmap + 1) ≤ len) :
    SameOutside mmap len m (storeEntry mmap m entry) :=
  (growMemSize_outside hlen entry).trans (storeRange_outside hlen (by rwa [regionCountAt_growMemSize]))

/-- The body of the loop returns, and has stored only where the map and its places are. -/
theorem intakeEntry_outside (mmap e : Nat) (m : Mem) :
    ∃ m', (intakeEntry mmap e m).result = .ok m' ∧ SameOutside mmap mapReach m m' := by
  have hlen : 1304 ≤ mapReach := by decide
  unfold intakeEntry
  dsimp only
  rw [intakeRange_eq]
  refine ⟨_, rfl, (growMemSize_outside hlen _).trans (storeRange_outside hlen (.inr ?_))⟩
  have hcount := regionCountAt_lt (growMemSize mmap (mmapEntryAt m e) m) mmap
  unfold mapReach
  omega

/-- The size that the loop keeps in the map. -/
def MemMap.grown (mmap : MemMap) (entry : MmapEntry) : MemMap :=
  if add64 entry.addr entry.len > mmap.memSize then { mmap with memSize := add64 entry.addr entry.len } else mmap

theorem MemMap.grown_regions (mmap : MemMap) (entry : MmapEntry) : (mmap.grown entry).regions = mmap.regions := by
  unfold MemMap.grown
  split_ifs <;> rfl

theorem registerEntry_eq (mmap : MemMap) (entry : MmapEntry) : registerEntry mmap entry =
    if entry.type = multibootMemoryAvailable then
      if alignDown (add64 entry.addr entry.len) defaultPageSize > alignUp entry.addr defaultPageSize then
        memmapRegisterRegion (mmap.grown entry) (alignUp entry.addr defaultPageSize)
          (alignDown (add64 entry.addr entry.len) defaultPageSize)
      else mmap.grown entry
    else mmap.grown entry := rfl

theorem registerEntry_none (mmap : MemMap) (h : entry.range = none) : registerEntry mmap entry = mmap.grown entry := by
  rw [registerEntry_eq]
  split_ifs with htype hne
  · exact absurd hne (range_eq_none h htype)
  · rfl
  · rfl

theorem registerEntry_some (mmap : MemMap) {start stop : Nat} (h : entry.range = some (start, stop)) :
    registerEntry mmap entry = memmapRegisterRegion (mmap.grown entry) start stop := by
  obtain ⟨htype, hne, rfl, rfl⟩ := range_eq_some h
  rw [registerEntry_eq, if_pos htype, if_pos hne]

/-- An entry registers its range. -/
theorem registerEntry_bounds (mmap : MemMap) (entry : MmapEntry) :
    (registerEntry mmap entry).regions.map MemRegion.bounds =
      mmap.regions.map MemRegion.bounds ++ entry.range.toList := by
  rcases hr : entry.range with _ | ⟨start, stop⟩
  · rw [registerEntry_none mmap hr, MemMap.grown_regions]
    simp
  · obtain ⟨-, hne, -, hstop⟩ := range_eq_some hr
    have hlt : stop < 2 ^ 64 := by
      rw [hstop]
      exact lt_of_le_of_lt Nat.and_le_left (u64_lt _)
    rw [registerEntry_some mmap hr, memmapRegisterRegion]
    -- the region has the length of the range
    simp only [MemMap.grown_regions, List.map_append, List.map_singleton, MemRegion.bounds,
      sub64_of_le (le_of_lt hne) hlt, Nat.add_sub_cancel' (le_of_lt hne), Option.toList_some]

theorem mapAt_growMemSize (m : Mem) (mmap : Nat) (entry : MmapEntry) :
    mapAt (growMemSize mmap entry m) mmap = (mapAt m mmap).grown entry := by
  have hdata : bitmapDataAt (growMemSize mmap entry m) mmap = bitmapDataAt m mmap :=
    funext fun i => growMemSize_outside le_rfl entry _ (.inr (Nat.le_add_right ..))
  rw [mapAt, regionCountAt_growMemSize, hdata]
  unfold growMemSize MemMap.grown
  by_cases hgrows : add64 entry.addr entry.len > memSizeAt m mmap
  · have hgrows' : add64 entry.addr entry.len > (mapAt m mmap).memSize := hgrows
    have hregions : ∀ i, regionAt (setMemSize m mmap (add64 entry.addr entry.len)) mmap i = regionAt m mmap i := by
      intro i
      unfold regionAt
      simp
    have hend : add64 entry.addr entry.len < 2 ^ 64 := u64_lt _
    rw [if_pos hgrows, if_pos hgrows', memSizeAt_setMemSize hend, bitmapSizeAt_setMemSize, funext hregions]
    rfl
  · have hgrows' : ¬add64 entry.addr entry.len > (mapAt m mmap).memSize := hgrows
    rw [if_neg hgrows, if_neg hgrows']
    rfl

/-- With room in the table, the map that is stored is the map that the entry makes. -/
theorem mapAt_storeEntry (hroom : entry.range = none ∨ regionCountAt m mmap < maxMemRegions) :
    mapAt (storeEntry mmap m entry) mmap = registerEntry (mapAt m mmap) entry := by
  unfold storeEntry storeRange
  rcases hr : entry.range with _ | ⟨start, stop⟩
  · rw [registerEntry_none _ hr]
    exact mapAt_growMemSize m mmap entry
  · have hstart : start < 2 ^ 64 := by
      rw [(range_eq_some hr).2.2.1]
      exact alignUp_lt ..
    have hroom' : regionCountAt (growMemSize mmap entry m) mmap < maxMemRegions := by
      rw [regionCountAt_growMemSize]
      exact hroom.resolve_left (by simp [hr])
    rw [registerEntry_some _ hr, ← mapAt_growMemSize]
    exact mapAt_registerRegion hroom' hstart

end

/-! ## All entries -/

/-- The memory behind the first `k` of these entries. -/
def takenMem (mmap : Nat) (m : Mem) (entries : List MmapEntry) (k : Nat) : Mem :=
  (entries.take k).foldl (storeEntry mmap) (startMap mmap m)

/-- The ranges that these entries register. -/
def entryRanges (entries : List MmapEntry) : List (Nat × Nat) := entries.filterMap MmapEntry.range

/-- The loop finds the tag as the boot loader left it: as long as the table has room, what is stored for the first `k`
entries changes neither the size of the tag, nor the size of an entry, nor the entry that comes next. -/
structure TagKept (mmap : Nat) (m : Mem) (tag : Nat) (entries : List MmapEntry) : Prop where
  size : ∀ k ≤ entries.length, (entryRanges (entries.take k)).length ≤ maxMemRegions →
    mmapTagSize (takenMem mmap m entries k) tag = mmapTagSize m tag
  entrySize : ∀ k < entries.length, (entryRanges (entries.take (k + 1))).length ≤ maxMemRegions →
    mmapEntrySize (takenMem mmap m entries (k + 1)) tag = mmapEntrySize m tag
  entry : ∀ k (hk : k < entries.length), (entryRanges (entries.take k)).length ≤ maxMemRegions →
    let e := tag + 16 + mmapEntrySize m tag * k
    mmapEntryAt (takenMem mmap m entries k) e = entries[k] ∧
      mmapEntryAt (growMemSize mmap entries[k] (takenMem mmap m entries k)) e = entries[k]

section
variable {mmap tag k : Nat} {m : Mem} {entries : List MmapEntry}

theorem takenMem_succ (hk : k < entries.length) :
    takenMem mmap m entries (k + 1) = storeEntry mmap (takenMem mmap m entries k) entries[k] := by
  unfold takenMem
  rw [List.take_succ_eq_append_getElem hk, List.foldl_append]
  rfl

theorem entryRanges_take_succ (hk : k < entries.length) :
    entryRanges (entries.take (k + 1)) = entryRanges (entries.take k) ++ (entries[k].range).toList := by
  unfold entryRanges
  rw [List.take_succ_eq_append_getElem hk, List.filterMap_append]
  cases hr : entries[k].range <;> simp [hr]

theorem mapAt_regionCount (m : Mem) (mmap : Nat) : (mapAt m mmap).regions.length = regionCountAt m mmap := by
  simp [mapAt]

theorem foldl_registerEntry_bounds (entries : List MmapEntry) (mmap : MemMap) :
    (entries.foldl registerEntry mmap).regions.map MemRegion.bounds =
      mmap.regions.map MemRegion.bounds ++ entryRanges entries := by
  induction entries generalizing mmap with
  | nil => simp [entryRanges]
  | cons entry entries ih =>
    rw [List.foldl_cons, ih, registerEntry_bounds, List.append_assoc]
    unfold entryRanges
    cases hr : entry.range <;> simp [hr]

theorem entryRanges_take_le (hk : k < entries.length) :
    (entryRanges (entries.take k)).length ≤ (entryRanges (entries.take (k + 1))).length := by
  rw [entryRanges_take_succ hk, List.length_append]
  exact Nat.le_add_right ..

theorem registerEntries_length (data : Mem) (entries : List MmapEntry) :
    (registerEntries data entries).regions.length = (entryRanges entries).length := by
  have hbounds := foldl_registerEntry_bounds entries (emptyMap data)
  simpa [emptyMap, registerEntries] using congrArg List.length hbounds

/-- As long as the table has room, the map that is stored is the one that the entries make. -/
theorem mapAt_takenMem (hk : k ≤ entries.length) (hroom : (entryRanges (entries.take k)).length ≤ maxMemRegions) :
    mapAt (takenMem mmap m entries k) mmap = registerEntries (bitmapDataAt m mmap) (entries.take k) := by
  induction k with
  | zero => exact mapAt_startMap m mmap
  | succ k ih =>
    have hlt : k < entries.length := hk
    have hmap := ih hlt.le ((entryRanges_take_le hlt).trans hroom)
    have hcount : regionCountAt (takenMem mmap m entries k) mmap = (entryRanges (entries.take k)).length := by
      rw [← mapAt_regionCount, hmap, registerEntries_length]
    rw [takenMem_succ hlt, mapAt_storeEntry, hmap, List.take_succ_eq_append_getElem hlt, registerEntries,
      registerEntries, List.foldl_append]
    · rfl
    · rw [hcount]
      rw [entryRanges_take_succ hlt, List.length_append] at hroom
      rcases hr : entries[k].range with _ | range
      · exact .inl rfl
      · rw [hr, Option.toList_some, List.length_singleton] at hroom
        exact .inr hroom

theorem regionCountAt_takenMem (hk : k ≤ entries.length) (hroom : (entryRanges (entries.take k)).length ≤ maxMemRegions) :
    regionCountAt (takenMem mmap m entries k) mmap = (entryRanges (entries.take k)).length := by
  rw [← mapAt_regionCount, mapAt_takenMem hk hroom, registerEntries_length]

/-! ## The loop -/

theorem intakeRound_steady (mmap tag : Nat) (s : Mem × Nat) : Run.Steady (intakeRound mmap tag · s) := .const _

/-- A round behind the end of the tag. -/
theorem intakeRound_out {s : Mem × Nat} (hout : add64 tag (mmapTagSize s.1 tag) ≤ s.2) (fuel : Nat) :
    intakeRound mmap tag fuel s = return none := if_neg (Nat.not_lt.2 hout)

/-- A round for an entry that is read the same both times. -/
theorem intakeRound_in {s : Mem × Nat} {entry : MmapEntry} (hin : s.2 < add64 tag (mmapTagSize s.1 tag))
    (hread : mmapEntryAt s.1 s.2 = entry) (hagain : mmapEntryAt (growMemSize mmap entry s.1) s.2 = entry) (fuel : Nat) :
    intakeRound mmap tag fuel s = ⟨storedIndices mmap entry s.1, .ok (some (storeEntry mmap s.1 entry,
      add64 s.2 (mmapEntrySize (storeEntry mmap s.1 entry) tag)))⟩ := by
  have hentry : intakeEntry mmap s.2 s.1 = ⟨storedIndices mmap entry s.1, .ok (storeEntry mmap s.1 entry)⟩ := by
    unfold intakeEntry
    dsimp only
    rw [hread, hagain, intakeRange_eq]
    unfold storedIndices
    rw [regionCountAt_growMemSize]
    rfl
  unfold intakeRound
  rw [if_pos hin, hentry, Run.bind_of_ok rfl]
  simp

/-- Where the loop is behind the first `k` entries. -/
def takenState (mmap : Nat) (m : Mem) (tag : Nat) (entries : List MmapEntry) (k : Nat) : Mem × Nat :=
  (takenMem mmap m entries k, tag + 16 + mmapEntrySize m tag * k)

/-- The round for entry number `k`. -/
theorem TagKept.round (hkept : TagKept mmap m tag entries) (h : MmapTag m tag entries) (hk : k < entries.length)
    (hroom : (entryRanges (entries.take k)).length ≤ maxMemRegions) :
    ∃ next, (∀ fuel, intakeRound mmap tag fuel (takenState mmap m tag entries k) =
        ⟨storedIndices mmap entries[k] (takenMem mmap m entries k), .ok (some next)⟩) ∧
      ((entryRanges (entries.take (k + 1))).length ≤ maxMemRegions → next = takenState mmap m tag entries (k + 1)) := by
  obtain ⟨hread, hagain⟩ := hkept.entry k hk hroom
  have hsize := h.size
  have haddr := h.addr
  have hplace : tag + 16 + mmapEntrySize m tag * (k + 1) ≤ tag + mmapTagSize m tag := by
    have hmul := Nat.mul_le_mul_left (mmapEntrySize m tag) (show k + 1 ≤ entries.length from hk)
    omega
  have hin : (takenState mmap m tag entries k).2 <
      add64 tag (mmapTagSize (takenState mmap m tag entries k).1 tag) := by
    have hstep := h.stepped
    rw [Nat.mul_succ] at hplace
    show tag + 16 + mmapEntrySize m tag * k < add64 tag (mmapTagSize (takenMem mmap m entries k) tag)
    rw [hkept.size k hk.le hroom, add64_of_lt haddr]
    omega
  refine ⟨_, intakeRound_in hin hread hagain, fun hroom' => ?_⟩
  have hmem : storeEntry mmap (takenState mmap m tag entries k).1 entries[k] = takenMem mmap m entries (k + 1) :=
    (takenMem_succ hk).symm
  rw [hmem, hkept.entrySize k hk hroom']
  show (_, add64 (tag + 16 + mmapEntrySize m tag * k) (mmapEntrySize m tag)) = takenState mmap m tag entries (k + 1)
  rw [Nat.mul_succ] at hplace
  rw [takenState, Nat.mul_succ, add64_of_lt (by omega), Nat.add_assoc (tag + 16)]

theorem entryRanges_take_le_ranges (entries : List MmapEntry) (k : Nat) :
    (entryRanges (entries.take k)).length ≤ (entryRanges entries).length :=
  ((List.take_sublist k entries).filterMap _).length_le

/-- From the `k`th entry on the loop ends, with no store behind the table, exactly if all ranges fit in. -/
theorem TagKept.ends_iff (hkept : TagKept mmap m tag entries) (h : MmapTag m tag entries) {s : Mem × Nat} :
    ∀ rest k, k + rest = entries.length → (entryRanges (entries.take k)).length ≤ maxMemRegions →
      (Run.Ends (· < maxMemRegions) (Run.loop (intakeRound mmap tag) · (takenState mmap m tag entries k)) s ↔
        (entryRanges entries).length ≤ maxMemRegions ∧ takenState mmap m tag entries entries.length = s)
  | 0, k, hrest, hroom => by
    obtain rfl : k = entries.length := hrest
    have hsize := h.size
    have hout : add64 tag (mmapTagSize (takenState mmap m tag entries entries.length).1 tag) ≤
        (takenState mmap m tag entries entries.length).2 := by
      show add64 tag (mmapTagSize (takenMem mmap m entries entries.length) tag) ≤
        tag + 16 + mmapEntrySize m tag * entries.length
      rw [hkept.size _ le_rfl hroom, add64_of_lt h.addr]
      omega
    have hround := @intakeRound_out mmap tag _ hout
    rw [List.take_length] at hroom
    rw [Run.ends_loop_last (intakeRound_steady mmap tag _) ⟨0, congrArg Run.result (hround 0)⟩]
    simp only [hround, Run.ends_pure, true_and, hroom]
  | rest + 1, k, hrest, hroom => by
    have hk : k < entries.length := by omega
    obtain ⟨next, hround, hnext⟩ := hkept.round h hk hroom
    have hallowed : Run.Ends (· < maxMemRegions) (intakeRound mmap tag · (takenState mmap m tag entries k)) (some next) ↔
        (entryRanges (entries.take (k + 1))).length ≤ maxMemRegions := by
      simp only [hround, Run.ends_const, true_and]
      unfold storedIndices
      rw [regionCountAt_takenMem hk.le hroom, entryRanges_take_succ hk, List.length_append]
      cases entries[k].range with
      | none => simpa using hroom
      | some range => simp
    rw [Run.ends_loop_head (intakeRound_steady mmap tag) ⟨0, congrArg Run.result (hround 0)⟩, hallowed]
    constructor
    · rintro ⟨hroom', hloop⟩
      rw [hnext hroom'] at hloop
      exact (hkept.ends_iff h rest (k + 1) (by omega) hroom').1 hloop
    · rintro ⟨hfits, hs⟩
      have hroom' := (entryRanges_take_le_ranges entries (k + 1)).trans hfits
      rw [hnext hroom']
      exact ⟨hroom', (hkept.ends_iff h rest (k + 1) (by omega) hroom').2 ⟨hfits, hs⟩⟩

/-- As long as the table has room, nothing is stored outside of the map. -/
theorem takenMem_outside (hk : k ≤ entries.length) (hroom : (entryRanges (entries.take k)).length ≤ maxMemRegions) :
    SameOutside mmap bitmapDataOffset m (takenMem mmap m entries k) := by
  induction k with
  | zero => exact startMap_outside mmap m
  | succ k ih =>
    have hlt : k < entries.length := hk
    have hroom' := (entryRanges_take_le hlt).trans hroom
    rw [takenMem_succ hlt]
    refine (ih hlt.le hroom').trans (storeEntry_outside le_rfl ?_)
    rw [regionCountAt_takenMem hlt.le hroom']
    rw [entryRanges_take_succ hlt, List.length_append] at hroom
    cases hr : entries[k].range with
    | none => exact .inl rfl
    | some range =>
      rw [hr, Option.toList_some, List.length_singleton] at hroom
      unfold maxMemRegions at hroom
      unfold bitmapDataOffset
      exact .inr (by omega)

theorem mmapEntryAt_congr {m' : Mem} {e : Nat} (h : ∀ x, e ≤ x → x < e + 20 → m' x = m x) :
    mmapEntryAt m' e = mmapEntryAt m e := by
  have hload : ∀ k n, k + n ≤ 20 → m'.load (e + k) n = m.load (e + k) n :=
    fun k n hk => Mem.load_congr fun x h1 h2 => h x (by omega) (by omega)
  unfold mmapEntryAt
  rw [hload _ 8 (by decide), hload _ 8 (by decide), hload _ 4 (by decide)]

/-- The loop finds every tag as it was that lies apart from the 1304 bytes of the map. -/
theorem TagKept.of_apart (h : MmapTag m tag entries) (hlong : 20 ≤ mmapEntrySize m tag)
    (hapart : tag + mmapTagSize m tag ≤ mmap ∨ mmap + bitmapDataOffset ≤ tag) : TagKept mmap m tag entries := by
  have hsize := h.size
  have hread : ∀ {m'}, SameOutside mmap bitmapDataOffset m m' → ∀ k (hk : k < entries.length),
      mmapEntryAt m' (tag + 16 + mmapEntrySize m tag * k) = entries[k] := by
    intro m' hsame k hk
    have hmul := Nat.mul_le_mul_left (mmapEntrySize m tag) (show k + 1 ≤ entries.length from hk)
    rw [Nat.mul_succ] at hmul
    rw [← h.entry k hk]
    exact mmapEntryAt_congr fun x h1 h2 => hsame x (by omega)
  refine ⟨fun k hk hroom => ?_, fun k hk hroom => ?_, fun k hk hroom => ?_⟩
  · refine congrArg BitVec.toNat ((takenMem_outside hk hroom).load ?_)
    rw [mmapSize_offset]
    omega
  · refine congrArg BitVec.toNat ((takenMem_outside hk hroom).load ?_)
    have hmul := Nat.mul_le_mul_left (mmapEntrySize m tag) (show 1 ≤ entries.length by omega)
    rw [mmapEntrySize_offset]
    omega
  · have hsame : SameOutside mmap bitmapDataOffset m _ := takenMem_outside hk.le hroom
    exact ⟨hread hsame k hk, hread (hsame.trans (growMemSize_outside le_rfl _)) k hk⟩

end

/-! ## The whole intake -/

/-- The whole pages of an available entry. -/
def MmapEntry.inward (entry : MmapEntry) : Option (Nat × Nat) :=
  let start := (entry.addr + 4095) / 4096 * 4096
  let stop := (entry.addr + entry.len) / 4096 * 4096
  if entry.type = multibootMemoryAvailable ∧ start < stop then some (start, stop) else none

/-- The loop ends, has stored to no region behind the table, and the regions are the whole pages of the available
entries, in order, as far as they fit. -/
def IntakeExact (mmap : Nat) (m : Mem) (tag : Nat) (entries : List MmapEntry) : Prop :=
  ∃ s, Run.Ends (· < maxMemRegions) (intakeTag mmap tag m) s ∧
    (mapAt s.1 mmap).regions.map MemRegion.bounds = (entries.filterMap MmapEntry.inward).take maxMemRegions ∧
    ∀ r ∈ (mapAt s.1 mmap).regions, ∃ entry ∈ entries, entry.type = multibootMemoryAvailable ∧
      entry.addr ≤ r.startAddr ∧ r.startAddr + r.lenBytes ≤ entry.addr + entry.len

section
variable {mmap tag : Nat} {m : Mem} {entries : List MmapEntry}

theorem range_eq_inward {entry : MmapEntry} (h : entry.addr + entry.len < 2 ^ 63) : entry.range = entry.inward := by
  unfold MmapEntry.range MmapEntry.inward defaultPageSize
  rw [show 4096 = 2 ^ 12 from rfl, add64_of_lt (by omega), alignUp_two_pow (by decide) (by omega),
    alignDown_two_pow (by omega) (by decide)]
  rfl

theorem entryRanges_eq_inward (h : ∀ entry ∈ entries, entry.addr + entry.len < 2 ^ 63) :
    entryRanges entries = entries.filterMap MmapEntry.inward :=
  List.filterMap_congr fun entry he => range_eq_inward (h entry he)

/-- A range rounded inward lies inside its entry. -/
theorem inward_inside {entry : MmapEntry} {start stop : Nat} (h : entry.inward = some (start, stop)) :
    entry.type = multibootMemoryAvailable ∧ entry.addr ≤ start ∧ stop ≤ entry.addr + entry.len := by
  unfold MmapEntry.inward at h
  dsimp only at h
  split_ifs at h with hand
  cases h
  exact ⟨hand.1, by omega, by omega⟩

/-- The loop begins at the first entry. -/
theorem MmapTag.intake_eq (h : MmapTag m tag entries) :
    intakeTag mmap tag m = (Run.loop (intakeRound mmap tag) · (takenState mmap m tag entries 0)) := by
  have hsize := h.size
  have haddr := h.addr
  funext fuel
  unfold intakeTag takenState
  rw [entries_offset, add64_of_lt (by omega)]
  rfl

/-- The intake of a tag that the loop finds as it was ends, with no store behind the table, exactly if all ranges fit
in. -/
theorem TagKept.intake_iff (hkept : TagKept mmap m tag entries) (h : MmapTag m tag entries) {s : Mem × Nat} :
    Run.Ends (· < maxMemRegions) (intakeTag mmap tag m) s ↔
      (entryRanges entries).length ≤ maxMemRegions ∧ takenState mmap m tag entries entries.length = s := by
  rw [h.intake_eq]
  exact hkept.ends_iff h entries.length 0 (Nat.zero_add _) (Nat.zero_le _)

/-- The intake is exact for as many ranges as the table has room for, and not for one more: nothing compares the number
of regions with the size of the table. The tag is one that the loop finds as it was, as every one apart from the map. -/
theorem intake_exact_iff (h : MmapTag m tag entries) (hkept : TagKept mmap m tag entries)
    (hbound : ∀ entry ∈ entries, entry.addr + entry.len < 2 ^ 63) :
    IntakeExact mmap m tag entries ↔ (entries.filterMap MmapEntry.inward).length ≤ maxMemRegions := by
  rw [← entryRanges_eq_inward hbound]
  constructor
  · rintro ⟨s, hends, -⟩
    exact ((hkept.intake_iff h).1 hends).1
  · intro hfit
    have hmap : mapAt (takenMem mmap m entries entries.length) mmap = _ :=
      mapAt_takenMem le_rfl (by rwa [List.take_length])
    rw [List.take_length] at hmap
    have hbounds : (registerEntries (bitmapDataAt m mmap) entries).regions.map MemRegion.bounds = entryRanges entries :=
      (foldl_registerEntry_bounds entries (emptyMap (bitmapDataAt m mmap))).trans (List.nil_append _)
    refine ⟨_, (hkept.intake_iff h).2 ⟨hfit, rfl⟩, ?_⟩
    show (mapAt (takenMem mmap m entries entries.length) mmap).regions.map _ = _ ∧
      ∀ r ∈ (mapAt (takenMem mmap m entries entries.length) mmap).regions, _
    rw [hmap]
    refine ⟨?_, fun r hr => ?_⟩
    · rw [hbounds, ← entryRanges_eq_inward hbound, List.take_of_length_le hfit]
    · have hmem : r.bounds ∈ entryRanges entries := by
        rw [← hbounds]
        exact List.mem_map_of_mem hr
      obtain ⟨entry, he, hrange⟩ := List.mem_filterMap.1 hmem
      rw [range_eq_inward (hbound entry he)] at hrange
      exact ⟨entry, he, inward_inside hrange⟩

end

/-- Entries of one page each, a page apart. -/
def pageEntries (n : Nat) : List MmapEntry := (List.range n).map fun i => ⟨8192 * i, 4096, 1⟩

theorem pageEntries_getElem {n i : Nat} (hi : i < (pageEntries n).length) :
    (pageEntries n)[i] = ⟨8192 * i, 4096, 1⟩ := by
  simp [pageEntries]

/-- A tag of `n` such entries at `tag`. -/
def pageTag (tag n : Nat) : Mem := fun a =>
  if a < tag then 0
  else if a < tag + 16 then
    if a = tag + 4 then BitVec.ofNat 8 (16 + 24 * n) else if a = tag + 5 then BitVec.ofNat 8 ((16 + 24 * n) / 256)
    else if a = tag + 8 then 24 else 0
  else
    let i := (a - tag - 16) / 24
    match (a - tag - 16) % 24 with
    | 1 => BitVec.ofNat 8 (32 * i)
    | 2 => BitVec.ofNat 8 (32 * i / 256)
    | 9 => 16
    | 16 => 1
    | _ => 0

theorem pageEntries_bound (n : Nat) (hn : n ≤ 33) : ∀ entry ∈ pageEntries n, entry.addr + entry.len < 2 ^ 63 := by
  intro entry he
  obtain ⟨i, hi, rfl⟩ := List.mem_map.1 he
  rw [List.mem_range] at hi
  dsimp only
  omega

theorem pageTag_one (tag : Nat) (htag : tag = 0 ∨ tag = 0x140000) : MmapTag (pageTag tag 1) tag (pageEntries 1) := by
  rcases htag with rfl | rfl
  all_goals
    refine ⟨by decide +kernel, by decide +kernel, ?_, by decide +kernel⟩
    intro i hi
    obtain rfl : i = 0 := by simpa [pageEntries] using hi
    rfl

theorem intake_exact_iff_onePage : IntakeExact 0x140000 (pageTag 0 1) 0 (pageEntries 1) ↔
    ((pageEntries 1).filterMap MmapEntry.inward).length ≤ maxMemRegions :=
  intake_exact_iff (pageTag_one 0 (.inl rfl))
    (.of_apart (pageTag_one 0 (.inl rfl)) (by decide +kernel) (.inl (by decide +kernel))) (pageEntries_bound 1 (by decide))

theorem pageTag_many : MmapTag (pageTag 0 33) 0 (pageEntries 33) := by
  have hall : ∀ i : Fin 33,
      (mmapEntryAt (pageTag 0 33) (0 + 16 + mmapEntrySize (pageTag 0 33) 0 * i.1)).addr = 8192 * i.1 ∧
      (mmapEntryAt (pageTag 0 33) (0 + 16 + mmapEntrySize (pageTag 0 33) 0 * i.1)).len = 4096 ∧
      (mmapEntryAt (pageTag 0 33) (0 + 16 + mmapEntrySize (pageTag 0 33) 0 * i.1)).type = 1 := by decide +kernel
  refine ⟨by decide +kernel, by decide +kernel, ?_, by decide +kernel⟩
  intro i hi
  obtain ⟨h1, h2, h3⟩ := hall ⟨i, by simpa [pageEntries] using hi⟩
  rw [pageEntries_getElem hi]
  exact (MmapEntry.mk.injEq ..).mpr ⟨h1, h2, h3⟩

/-- A tag at `_kernel_end` is overwritten before the loop reads it: the map that is begun there makes its size 0. -/
theorem intake_overwritten : ¬IntakeExact 0x140000 (pageTag 0x140000 1) 0x140000 (pageEntries 1) := by
  rintro ⟨s, hends, hregions, -⟩
  have hround : ∀ fuel, intakeRound 0x140000 0x140000 fuel (startMap 0x140000 (pageTag 0x140000 1), 0x140010) =
      return none := intakeRound_out (by decide +kernel)
  obtain rfl := ((Run.ends_loop_last (intakeRound_steady _ _ _) ⟨0, congrArg Run.result (hround 0)⟩).1 hends).2
  rw [mapAt_startMap] at hregions
  exact absurd hregions (by decide +kernel)

/-- Of 33 pages that do not adjoin the last is registered behind the table, though the tag lies far from the map. A tag
of one page at `_kernel_end` is not taken in either. -/
theorem intake_overflows : (MmapTag (pageTag 0 33) 0 (pageEntries 33) ∧
      (∀ entry ∈ pageEntries 33, entry.addr + entry.len < 2 ^ 63) ∧
      ¬IntakeExact 0x140000 (pageTag 0 33) 0 (pageEntries 33)) ∧
    MmapTag (pageTag 0x140000 1) 0x140000 (pageEntries 1) ∧
      ¬IntakeExact 0x140000 (pageTag 0x140000 1) 0x140000 (pageEntries 1) := by
  refine ⟨⟨pageTag_many, pageEntries_bound 33 le_rfl, ?_⟩, pageTag_one _ (.inr rfl), intake_overwritten⟩
  rintro ⟨s, hends, -⟩
  have hkept : TagKept 0x140000 (pageTag 0 33) 0 (pageEntries 33) :=
    .of_apart pageTag_many (by decide +kernel) (.inl (by decide +kernel))
  have hfit : (entryRanges (pageEntries 33)).length ≤ maxMemRegions := ((hkept.intake_iff pageTag_many).1 hends).1
  exact absurd hfit (by decide +kernel)

end Icarus.Memory
