/-
Whether the walks over the boot information end and stay inside (multiboot2.c, memory_mapping.c): neither loop compares
what it walks over with the size it was given, so this is a matter of the tags and of the entries alone.
-/
import Icarus.Boot.TagRounds

namespace Icarus.Boot

open Icarus.Base Icarus.Memory

/-! ## The entries of a memory map -/

/-- The loop over the entries of the tag at `tag` leaves: the tag, with the size that it has now, is over. -/
def LastEntry (tag stop : Nat) (s : Mem × Nat) : Prop := tag + 8 ≤ stop ∧ tag + mmapTagSize s.1 tag ≤ s.2

/-- The entry starts inside the tag, what is read of it ends before `stop`, and the next one lies behind it by the size
that an entry has when this one has been taken in. -/
def EntryThen (image : KernelImage) (tag stop : Nat) (s s' : Mem × Nat) : Prop :=
  s.2 < tag + mmapTagSize s.1 tag ∧ s.2 + 20 ≤ stop ∧ (intakeEntry image.mapAddr s.2 s.1).result = .ok s'.1 ∧
    s'.2 = s.2 + mmapEntrySize s'.1 tag

/-- The entries of the tag at `tag` are whole: from the first on each ends inside the tag and in mapped memory, up to the
end of the tag, in the memory to which the map is stored on the way. -/
def EntriesWhole (image : KernelImage) (m : Mem) (tag : Nat) : Prop :=
  ∃ ss, Walked (LastEntry tag (min (tag + mmapTagSize m tag) bootMappedEnd))
    (EntryThen image tag (min (tag + mmapTagSize m tag) bootMappedEnd)) (startMap image.mapAddr m, tag + 16) ss

/-- Every entry that starts in the tag ends in it, and in mapped memory, and if there is one, the entries do not lie on top
of each other. -/
def EntriesFit (m : Mem) (tag : Nat) : Prop :=
  8 ≤ mmapTagSize m tag ∧ tag + 8 ≤ bootMappedEnd ∧ (16 < mmapTagSize m tag → 0 < mmapEntrySize m tag) ∧
    ∀ i, 16 + mmapEntrySize m tag * i < mmapTagSize m tag →
      16 + mmapEntrySize m tag * i + 20 ≤ mmapTagSize m tag ∧
        tag + (16 + mmapEntrySize m tag * i + 20) ≤ bootMappedEnd

/-- The loop over the entries ends and reads nothing outside of the tag. -/
def EntryLoopInside (image : KernelImage) (m : Mem) (tag : Nat) : Prop :=
  ∃ s, Run.Ends (BootEvent.Inside tag (tag + mmapTagSize m tag)) (entryLoop image tag m) s

section
variable {P : BootEvent → Prop} {lo stop : Nat} {image : KernelImage} {m : Mem} {tag : Nat} {s s' : Mem × Nat}

theorem entryRound_out (htag : tag < 2 ^ 36) (hout : tag + mmapTagSize s.1 tag ≤ s.2) (fuel : Nat) :
    entryRound image tag fuel s = do readBytes (tag + 4) 4; return none := by
  have hsize : mmapTagSize s.1 tag < 2 ^ 32 := BitVec.isLt _
  simp only [entryRound, mmapSize_offset, add64_of_lt (show tag + mmapTagSize s.1 tag < 2 ^ 64 by omega),
    Nat.not_lt.2 hout, if_false]

/-- What a round does behind its reads of the size and of the entry. -/
def takeIn (image : KernelImage) (tag : Nat) (s : Mem × Nat) : Run BootEvent (Option (Mem × Nat)) := do
  let m ← .quiet (intakeEntry image.mapAddr s.2 s.1).result
  readBytes (tag + 8) 4
  return some (m, add64 s.2 (mmapEntrySize m tag))

theorem entryRound_in (htag : tag < 2 ^ 36) (hin : s.2 < tag + mmapTagSize s.1 tag) (fuel : Nat) :
    entryRound image tag fuel s =
      readBytes (tag + 4) 4 >>= fun _ => readBytes s.2 20 >>= fun _ => takeIn image tag s := by
  have hsize : mmapTagSize s.1 tag < 2 ^ 32 := BitVec.isLt _
  simp only [entryRound, takeIn, mmapSize_offset, mmapEntrySize_offset,
    add64_of_lt (show tag + mmapTagSize s.1 tag < 2 ^ 64 by omega), hin, if_true]

theorem ends_takeIn (w : Window P lo stop) (htag : tag < 2 ^ 36) (hs : s.2 < 2 ^ 37) {next : Option (Mem × Nat)} :
    Run.Ends P (fun _ => takeIn image tag s) next ↔ ∃ s', next = some s' ∧ (lo ≤ tag + 8 ∧ tag + 12 ≤ stop) ∧
      (intakeEntry image.mapAddr s.2 s.1).result = .ok s'.1 ∧ s'.2 = s.2 + mmapEntrySize s'.1 tag := by
  have hread : Run.Ends P (fun _ => readBytes (tag + 8) 4) () ↔ lo ≤ tag + 8 ∧ tag + 12 ≤ stop :=
    ends_readBytes w (by decide) (by omega)
  unfold takeIn
  constructor
  · intro h
    obtain ⟨m', hm', h⟩ := (Run.ends_bind (f := fun _ (m' : Mem) => readBytes (tag + 8) 4 >>= fun _ =>
      pure (some (m', add64 s.2 (mmapEntrySize m' tag)))) (.const _) fun _ => .const _).1 h
    obtain ⟨⟨_, hr⟩, rfl⟩ := (Run.ends_bind_pure (.const (readBytes (tag + 8) 4))).1 h
    have hstep : mmapEntrySize m' tag < 2 ^ 32 := BitVec.isLt _
    exact ⟨_, rfl, hread.1 hr, (Run.ends_const.1 hm').1, add64_of_lt (by omega)⟩
  · rintro ⟨⟨m', e'⟩, rfl, hr, hm', he'⟩
    have hstep : mmapEntrySize m' tag < 2 ^ 32 := BitVec.isLt _
    refine (Run.ends_bind (f := fun _ (m' : Mem) => readBytes (tag + 8) 4 >>= fun _ =>
      pure (some (m', add64 s.2 (mmapEntrySize m' tag)))) (.const _) fun _ => .const _).2
      ⟨m', Run.ends_const.2 ⟨hm', nofun⟩, ?_⟩
    refine (Run.ends_bind_pure (.const (readBytes (tag + 8) 4))).2 ⟨⟨(), hread.2 hr⟩, ?_⟩
    rw [add64_of_lt (by omega), ← he']

/-- The loop leaves behind the tag, and reads the size of the tag to find out. -/
theorem ends_entryRound_none (w : Window P lo stop) (htag : tag < 2 ^ 36) (hs : s.2 < 2 ^ 37) :
    Run.Ends P (entryRound image tag · s) none ↔
      (lo ≤ tag + 4 ∧ tag + 8 ≤ stop) ∧ tag + mmapTagSize s.1 tag ≤ s.2 := by
  by_cases hin : s.2 < tag + mmapTagSize s.1 tag
  · refine iff_of_false (fun h => ?_) fun h => absurd h.2 (Nat.not_le.2 hin)
    simp only [entryRound_in htag hin] at h
    obtain ⟨-, -, h⟩ := (Run.ends_bind (.const (readBytes (tag + 4) 4)) fun _ => .const _).1 h
    obtain ⟨-, -, h⟩ := (Run.ends_bind (.const (readBytes s.2 20)) fun _ => .const _).1 h
    obtain ⟨s', hnext, -⟩ := (ends_takeIn w htag hs).1 h
    cases hnext
  · simp only [entryRound_out htag (Nat.not_lt.1 hin)]
    rw [Run.ends_bind_pure (.const (readBytes (tag + 4) 4))]
    simp only [Unique.exists_iff, Nat.not_lt.1 hin]
    exact and_congr_left fun _ => ends_readBytes w (by decide) (by omega)

/-- The loop goes on to the next entry, and reads all of this one before. -/
theorem ends_entryRound_some (w : Window P lo stop) (htag : tag < 2 ^ 36) (hs : s.2 < 2 ^ 37) :
    Run.Ends P (entryRound image tag · s) (some s') ↔
      (lo ≤ tag + 4 ∧ tag + 12 ≤ stop) ∧ lo ≤ s.2 ∧ EntryThen image tag stop s s' := by
  unfold EntryThen
  by_cases hin : s.2 < tag + mmapTagSize s.1 tag
  · simp only [entryRound_in htag hin]
    rw [Run.ends_bind (.const (readBytes (tag + 4) 4)) fun _ => .const _]
    simp only [Run.ends_bind (.const (readBytes s.2 20)) fun _ => .const (takeIn image tag s), Unique.exists_iff,
      ends_readBytes w (show 0 < 4 by decide) (show tag + 4 + 4 < 2 ^ 38 by omega),
      ends_readBytes w (show 0 < 20 by decide) (show s.2 + 20 < 2 ^ 38 by omega), ends_takeIn w htag hs,
      Option.some.injEq, exists_eq_left']
    constructor
    · rintro ⟨h4, h20, h8, hrest⟩
      exact ⟨⟨h4.1, h8.2⟩, h20.1, hin, h20.2, hrest⟩
    · rintro ⟨h4, hlo, -, h20, hrest⟩
      exact ⟨⟨h4.1, by omega⟩, ⟨hlo, h20⟩, by omega, hrest⟩
  · refine iff_of_false (fun h => ?_) fun h => hin h.2.2.1
    simp only [entryRound_out htag (Nat.not_lt.1 hin)] at h
    cases ((Run.ends_bind_pure (.const _)).1 h).2

/-- The loop over the entries ends inside the tag exactly if its entries are whole. -/
theorem entryLoop_inside_iff (htag : tag < 2 ^ 36) : EntryLoopInside image m tag ↔ EntriesWhole image m tag := by
  have hsize : mmapTagSize m tag < 2 ^ 32 := BitVec.isLt _
  have w := window_inside tag (tag + mmapTagSize m tag)
  have hend : bootMappedEnd = 20 * 0x200000 := rfl
  unfold EntryLoopInside EntriesWhole entryLoop
  rw [Run.ends_loop (entryRound_steady image tag), entries_offset, add64_of_lt (by omega)]
  -- the places stay where the reads are possible
  let Inv : Mem × Nat → Prop := fun s => tag + 16 ≤ s.2 ∧ s.2 < 2 ^ 37
  have hinv : ∀ {s s' : Mem × Nat}, Inv s → EntryThen image tag (min (tag + mmapTagSize m tag) bootMappedEnd) s s' →
      Inv s' := by
    intro s s' hs hthen
    have hlt := hthen.2.1
    have hnext := hthen.2.2.2
    have hstep : mmapEntrySize s'.1 tag < 2 ^ 32 := BitVec.isLt _
    have hlo := hs.1
    constructor <;> omega
  have hstart : Inv (startMap image.mapAddr m, tag + 16) := ⟨le_rfl, show tag + 16 < 2 ^ 37 by omega⟩
  constructor
  · rintro ⟨ss, h⟩
    refine ⟨ss, h.imp Inv (fun s hs hleave => ?_) (fun s s' hs hround => ?_) hstart⟩
    · obtain ⟨hread, hover⟩ := (ends_entryRound_none w htag hs.2).1 hleave
      exact ⟨hread.2, hover⟩
    · obtain ⟨-, -, hthen⟩ := (ends_entryRound_some w htag hs.2).1 hround
      exact ⟨hthen, hinv hs hthen⟩
  · rintro ⟨ss, h⟩
    refine ⟨ss, h.imp Inv (fun s hs hleave => ?_) (fun s s' hs hthen => ?_) hstart⟩
    · exact (ends_entryRound_none w htag hs.2).2 ⟨⟨by omega, hleave.1⟩, hleave.2⟩
    · have hlo := hs.1
      have hread := hthen.2.1
      exact ⟨(ends_entryRound_some w htag hs.2).2 ⟨⟨by omega, by omega⟩, by omega, hthen⟩, hinv hs hthen⟩

/-! ## Entries whose size is not stored to -/

/-- The sizes of the tag and of an entry lie apart from the map and its places. -/
def HeadApart (image : KernelImage) (tag : Nat) : Prop :=
  tag + 12 ≤ image.mapAddr ∨ image.mapAddr + mapReach ≤ tag + 4

theorem HeadApart.sizes (h : HeadApart image tag) {m' : Mem} (hsame : SameOutside image.mapAddr mapReach m m') :
    mmapTagSize m' tag = mmapTagSize m tag ∧ mmapEntrySize m' tag = mmapEntrySize m tag := by
  unfold HeadApart at h
  constructor <;> refine congrArg BitVec.toNat (hsame.load ?_)
  · rw [mmapSize_offset]
    omega
  · rw [mmapEntrySize_offset]
    omega

theorem startMap_reach (image : KernelImage) (m : Mem) :
    SameOutside image.mapAddr mapReach m (startMap image.mapAddr m) := by
  intro x hx
  refine startMap_outside image.mapAddr m x ?_
  unfold mapReach bitmapDataOffset at *
  omega

/-- What such a walk needs: the size of the tag, a step, and all of every entry. -/
theorem entryWalk_fits (hhead : HeadApart image tag) {ss : List (Mem × Nat)}
    (h : Walked (LastEntry tag stop) (EntryThen image tag stop) s ss) (hsame : SameOutside image.mapAddr mapReach m s.1) :
    tag + 8 ≤ stop ∧ (s.2 < tag + mmapTagSize m tag → 0 < mmapEntrySize m tag) ∧
      ∀ i, s.2 + mmapEntrySize m tag * i < tag + mmapTagSize m tag → s.2 + mmapEntrySize m tag * i + 20 ≤ stop := by
  induction h with
  | leave hleave =>
    obtain ⟨hread, hover⟩ := hleave
    rw [(hhead.sizes hsame).1] at hover
    exact ⟨hread, fun hin => absurd hin (Nat.not_lt.2 hover), fun i hi => by omega⟩
  | @record s s' ss hthen _ ih =>
    obtain ⟨hin, hread, htaken, hnext⟩ := hthen
    obtain ⟨m', hm', hsame'⟩ := intakeEntry_outside image.mapAddr s.2 s.1
    obtain rfl := Except.ok.inj (hm'.symm.trans htaken)
    obtain ⟨hhead', hpos, hrest⟩ := ih (hsame.trans hsame')
    rw [(hhead.sizes (hsame.trans hsame')).2] at hnext
    rw [hnext] at hpos hrest
    refine ⟨hhead', fun hin => ?_, fun i hi => ?_⟩
    · -- a step of 0 leads to the entry itself, and the walk behind it would need a step
      by_contra hzero
      exact hzero (hpos (by omega))
    · cases i with
      | zero => exact hread
      | succ i =>
        have hnext := hrest i
        rw [Nat.mul_succ] at hi ⊢
        omega

/-- Where the stores reach neither of the two sizes, the entries are whole exactly if they fit. -/
theorem entriesWhole_iff_fit (hhead : HeadApart image tag) : EntriesWhole image m tag ↔ EntriesFit m tag := by
  unfold EntriesWhole EntriesFit
  constructor
  · rintro ⟨ss, h⟩
    obtain ⟨hread, hpos, hrest⟩ := entryWalk_fits hhead h (startMap_reach image m)
    dsimp only at hpos hrest
    refine ⟨by omega, by omega, fun hsome => hpos (by omega), fun i hi => ?_⟩
    have hentry := hrest i (by omega)
    omega
  · rintro ⟨h8, hmapped, hpos, hwhole⟩
    refine exists_walked (fun s => tag + mmapTagSize m tag - s.2)
      (fun s => SameOutside image.mapAddr mapReach m s.1 ∧ ∃ i, s.2 = tag + 16 + mmapEntrySize m tag * i) ?_ _
      ⟨startMap_reach image m, 0, rfl⟩
    rintro ⟨m', e⟩ ⟨hsame, i, rfl⟩
    have hsize := (hhead.sizes hsame).1
    by_cases hin : tag + 16 + mmapEntrySize m tag * i < tag + mmapTagSize m tag
    · have hentry := hwhole i (by omega)
      have hstep := hpos (by omega)
      obtain ⟨m'', htaken, hsame'⟩ := intakeEntry_outside image.mapAddr (tag + 16 + mmapEntrySize m tag * i) m'
      have hnext := (hhead.sizes (hsame.trans hsame')).2
      refine .inr ⟨(m'', tag + 16 + mmapEntrySize m tag * i + mmapEntrySize m'' tag), ⟨?_, ?_, htaken, rfl⟩,
        ⟨hsame.trans hsame', i + 1, ?_⟩, ?_⟩ <;> dsimp only at hsize hnext ⊢
      · rwa [hsize]
      · omega
      · rw [hnext, Nat.mul_succ, Nat.add_assoc]
      · omega
    · refine .inl ⟨?_, ?_⟩ <;> dsimp only at hsize ⊢ <;> omega

end

/-! ## The tags -/

/-- `total_size`. -/
def totalSize (m : Mem) (addr : Nat) : Nat := (m.load addr 4).toNat

/-- The loop over the tags of the boot information at `addr` comes to the tag at `tag`. -/
def ReachesTag (m : Mem) (addr tag : Nat) : Prop :=
  ∃ mmap, Relation.ReflTransGen (Run.Steps (tagRound m)) (add64 addr 8, none) (tag, mmap)

/-- The loop over the tags ends and reads nothing outside of the boot information, and the loop over the entries of every
memory map that it comes to ends and reads nothing outside of the tag. -/
def BootWalksInside (image : KernelImage) (m : Mem) (addr : Nat) : Prop :=
  (∃ r, Run.Ends (BootEvent.Inside addr (addr + totalSize m addr)) (tagLoop m · (add64 addr 8)) r) ∧
    ∀ tag, ReachesTag m addr tag → tagKind m tag = .mmap → EntryLoopInside image m tag

/-- From `p` on there are tags one behind the other, with what is used of them, and the last of them is an end tag; the
entries of the memory maps among them are whole. -/
def TagsWhole (image : KernelImage) (m : Mem) (stop p : Nat) : Prop :=
  ∃ tags, Walked (LastTag m stop) (fun p q => TagThen m stop p q ∧ (tagKind m p = .mmap → EntriesWhole image m p)) p tags

section
variable {image : KernelImage} {m : Mem} {addr hi p : Nat}

/-- A place of the loop where the memory map, if it is one, is walked over inside. -/
def MmapInside (image : KernelImage) (m : Mem) (s : Nat × Option Nat) : Prop :=
  tagKind m s.1 = .mmap → EntryLoopInside image m s.1

theorem tagWalk_whole {lo hi : Nat} {s : Nat × Option Nat} {ss : List (Nat × Option Nat)}
    (h : Walked (fun s => Run.Ends (BootEvent.Inside lo hi) (tagRound m · s) none ∧ MmapInside image m s)
      (fun s s' => Run.Ends (BootEvent.Inside lo hi) (tagRound m · s) (some s') ∧ MmapInside image m s) s ss)
    (hlo : lo ≤ s.1) (hs : s.1 < 2 ^ 34) : TagsWhole image m (min hi bootMappedEnd) s.1 := by
  have w := window_inside lo hi
  have hend : bootMappedEnd = 20 * 0x200000 := rfl
  induction h with
  | leave hleave => exact ⟨[], .leave ((ends_tagRound_none w hlo (by omega)).1 hleave.1)⟩
  | @record s s' ss hstep _ ih =>
    obtain ⟨hround, hmmap⟩ := hstep
    obtain ⟨hthen, -⟩ := (ends_tagRound_some w hlo (by omega)).1 hround
    have h8 := hthen.2.1
    have hnext := hthen.2.2.2
    have hstride : tagStride m s.1 < 2 ^ 32 := BitVec.isLt _
    obtain ⟨tags, htags⟩ := ih (by omega) (by omega)
    exact ⟨_, .record ⟨hthen, fun hkind => (entryLoop_inside_iff (by omega)).1 (hmmap hkind)⟩ htags⟩

theorem TagsWhole.walk {lo hi : Nat} (h : TagsWhole image m (min hi bootMappedEnd) p) (hlo : lo ≤ p) (hp : p < 2 ^ 34)
    (mmap : Option Nat) :
    ∃ ss, Walked (fun s => Run.Ends (BootEvent.Inside lo hi) (tagRound m · s) none ∧ MmapInside image m s)
      (fun s s' => Run.Ends (BootEvent.Inside lo hi) (tagRound m · s) (some s') ∧ MmapInside image m s) (p, mmap) ss := by
  have w := window_inside lo hi
  have hend : bootMappedEnd = 20 * 0x200000 := rfl
  obtain ⟨tags, h⟩ := h
  induction h generalizing mmap with
  | leave hlast =>
    refine ⟨[], .leave ⟨(ends_tagRound_none w hlo (by omega)).2 hlast, fun hkind => ?_⟩⟩
    cases hlast.1.symm.trans hkind
  | @record p q tags hstep _ ih =>
    obtain ⟨hthen, hwhole⟩ := hstep
    have h8 := hthen.2.1
    have hnext := hthen.2.2.2
    have hstride : tagStride m p < 2 ^ 32 := BitVec.isLt _
    obtain ⟨ss, hss⟩ := ih (by omega) (by omega) (mmapSeen m p mmap)
    refine ⟨_, .record ⟨(ends_tagRound_some w hlo (by omega)).2 ⟨hthen, rfl⟩, fun hkind => ?_⟩ hss⟩
    exact (entryLoop_inside_iff (by omega)).2 (hwhole hkind)

/-- The walks as one walk over the tags. -/
theorem bootWalksInside_iff_walked (h : addr < 2 ^ 32) :
    BootWalksInside image m addr ↔ ∃ ss, Walked (fun s =>
        Run.Ends (BootEvent.Inside addr (addr + totalSize m addr)) (tagRound m · s) none ∧ MmapInside image m s)
      (fun s s' => Run.Ends (BootEvent.Inside addr (addr + totalSize m addr)) (tagRound m · s) (some s') ∧
        MmapInside image m s) (addr + 8, none) ss := by
  have hreach : (∀ tag, ReachesTag m addr tag → tagKind m tag = .mmap → EntryLoopInside image m tag) ↔
      ∀ s, Relation.ReflTransGen (Run.Steps (tagRound m)) (add64 addr 8, none) s → MmapInside image m s :=
    ⟨fun hall s hs => hall s.1 ⟨s.2, hs⟩, fun hall tag ⟨mmap, hs⟩ => hall (tag, mmap) hs⟩
  unfold BootWalksInside tagLoop
  rw [hreach, Run.ends_loop_and (tagRound_steady m), add64_of_lt (by omega)]

/-- The walks over the boot information end and stay inside exactly for tags that are whole: neither the size of the boot
information nor a step of 0 is looked at. For a memory map whose sizes lie apart from the map of the kernel, the latter
is a matter of the two sizes alone. -/
theorem bootWalks_inside_iff (h : addr < 2 ^ 32) :
    (BootWalksInside image m addr ↔
        TagsWhole image m (min (addr + totalSize m addr) bootMappedEnd) (addr + 8)) ∧
      ∀ tag, HeadApart image tag → (EntriesWhole image m tag ↔ EntriesFit m tag) := by
  refine ⟨?_, fun tag hhead => entriesWhole_iff_fit hhead⟩
  rw [bootWalksInside_iff_walked h]
  constructor
  · rintro ⟨ss, hss⟩
    exact tagWalk_whole hss (by simp) (by dsimp only; omega)
  · intro hwhole
    exact hwhole.walk (by omega) (by omega) none

/-- A tag that is not the last and takes no room leads to itself. -/
theorem not_tagsWhole_of_stride_zero {stop : Nat} (hkind : tagKind m p ≠ .endTag) (hzero : tagStride m p = 0) :
    ¬TagsWhole image m stop p := by
  rintro ⟨tags, h⟩
  refine not_walked_of_self (fun hlast => hkind hlast.1) (fun q hstep => ?_) h
  have hnext := hstep.1.2.2.2
  rwa [hzero, Nat.add_zero] at hnext

end

/-- Boot information at address 0: a memory map of one entry and the end tag. -/
def oneMmap : Mem
  | 0 => 56
  | 8 => 6
  | 12 => 40
  | 16 => 24
  | 34 => 9
  | 40 => 1
  | 52 => 8
  | _ => 0

/-- A kernel whose image ends at 0x140000. -/
def endImage : KernelImage := ⟨0x100000, 0xFFFFFFFF80140000⟩

theorem bootWalks_inside_oneMmap : BootWalksInside endImage oneMmap 0 := by
  have hwalks := @bootWalks_inside_iff endImage oneMmap 0 (by decide)
  refine hwalks.1.2 ⟨[8], .record ⟨⟨by decide, by decide, ?_, rfl⟩, fun _ => ?_⟩ (.leave ?_)⟩
  · exact trivial
  · have hsize : mmapTagSize oneMmap 8 = 40 := by decide
    have hentry : mmapEntrySize oneMmap 8 = 24 := by decide
    refine (hwalks.2 8 (.inl (by decide))).2 ⟨by decide, by decide, fun _ => by decide, fun i hi => ?_⟩
    rw [hsize, hentry] at hi
    rw [hsize, hentry, bootMappedEnd]
    omega
  · exact ⟨by decide, by decide⟩

/-- Boot information at address 0 with a tag of size 0. -/
def emptyTag : Mem
  | 0 => 24
  | 8 => 21
  | _ => 0

/-- The loop over the tags stays at the tag of size 0. -/
theorem emptyTag_not_inside : ¬BootWalksInside endImage emptyTag 0 := by
  rw [bootWalksInside_iff_walked (by decide)]
  rintro ⟨ss, hss⟩
  exact not_tagsWhole_of_stride_zero (by decide) (by decide) (tagWalk_whole hss (by decide) (by decide))

end Icarus.Boot
