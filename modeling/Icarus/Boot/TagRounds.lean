/-
What a round of the loop of `handle_multiboot2` does (multiboot2.c): it ends, with reads in a range only, exactly if the
fields that its branch uses lie in that range, and one of its branches calls the heap.
-/
import Icarus.Boot.Multiboot

namespace Icarus.Boot

open Icarus.Base Icarus.Memory
open Icarus.Acpi (rsdpMembers xsdpMembers)
open Icarus.Files (tarCountFiles)

/-! ## Reads in a range -/

/-- Low memory is mapped to its end. -/
theorem bootMapped_iff {a : Nat} (ha : a < 2 ^ 38) : BootMapped a ↔ a < bootMappedEnd := by
  unfold BootMapped vaPml4Index vaPdptIndex vaPdIndex vaIndexMask bootMappedEnd
  simp only [Nat.shiftRight_eq_div_pow, show 0x1FF = 2 ^ 9 - 1 from rfl, Nat.and_two_pow_sub_one_eq_mod]
  omega

/-- The reads that are allowed and succeed, in low memory, are those in this range. -/
structure Window (P : BootEvent → Prop) (lo stop : Nat) : Prop where
  mapped : stop ≤ bootMappedEnd
  read : ∀ a < 2 ^ 38, P (.read a) ∧ BootMapped a ↔ lo ≤ a ∧ a < stop

/-- What is read lies between these addresses. -/
def BootEvent.Inside (lo hi : Nat) : BootEvent → Prop
  | .read a => lo ≤ a ∧ a < hi
  | _ => True

theorem window_inside (lo hi : Nat) : Window (BootEvent.Inside lo hi) lo (min hi bootMappedEnd) where
  mapped := Nat.min_le_right ..
  read a ha := by
    rw [bootMapped_iff ha]
    unfold BootEvent.Inside
    dsimp only
    omega

theorem window_true : Window (fun _ => True) 0 bootMappedEnd where
  mapped := Nat.le_refl _
  read a ha := by
    rw [bootMapped_iff ha]
    simp

section
variable {P : BootEvent → Prop} {lo stop : Nat} {m : Mem} {a n p q : Nat} {o o' : Option Nat}

theorem ends_readBytes (w : Window P lo stop) (hn : 0 < n) (ha : a + n < 2 ^ 38) :
    Run.Ends P (fun _ => readBytes a n) () ↔ lo ≤ a ∧ a + n ≤ stop := by
  rw [Run.ends_const]
  unfold readBytes
  dsimp only
  constructor
  · rintro ⟨hres, hall⟩
    split_ifs at hres with hmapped
    have hread : ∀ x, a ≤ x → x < a + n → lo ≤ x ∧ x < stop := by
      intro x h1 h2
      have hx : x ∈ List.range' a n := List.mem_range'_1.2 ⟨h1, h2⟩
      exact (w.read x (by omega)).1 ⟨hall _ (List.mem_map_of_mem hx), hmapped x hx⟩
    have hfirst := hread a (Nat.le_refl _) (by omega)
    have hlast := hread (a + n - 1) (by omega) (by omega)
    omega
  · rintro ⟨hlo, hstop⟩
    have hread : ∀ x ∈ List.range' a n, P (.read x) ∧ BootMapped x := by
      intro x hx
      rw [List.mem_range'_1] at hx
      exact (w.read x (by omega)).2 (by omega)
    refine ⟨if_pos fun x hx => (hread x hx).2, ?_⟩
    intro e he
    obtain ⟨x, hx, rfl⟩ := List.mem_map.1 he
    exact (hread x hx).1

/-! ## Strings -/

theorem charRound_steady (m : Mem) (a : Nat) : Run.Steady (charRound m · a) := Run.Steady.const _

theorem writeStr_steady (m : Mem) (a : Nat) : Run.Steady (writeStr m · a) := Run.loop_steady (charRound_steady m) a

theorem ends_charRound (w : Window P lo stop) (ha : a + 1 < 2 ^ 38) {next : Option Nat} :
    Run.Ends P (charRound m · a) next ↔
      (lo ≤ a ∧ a + 1 ≤ stop) ∧ next = if m a = 0 then none else some (add64 a 1) := by
  unfold charRound
  rw [Run.ends_bind_pure (.const _), ← ends_readBytes w Nat.one_pos ha, eq_comm]
  exact and_congr_left fun _ => ⟨fun ⟨_, h⟩ => h, fun h => ⟨(), h⟩⟩

/-- A string is written to its end exactly if its terminator lies in the range. -/
theorem ends_writeStr (w : Window P lo stop) (hlo : lo ≤ a) (ha : a < 2 ^ 37) :
    (∃ b, Run.Ends P (writeStr m · a) b) ↔ ∃ z, a ≤ z ∧ z < stop ∧ m z = 0 := by
  have hend := w.mapped
  unfold bootMappedEnd at hend
  unfold writeStr
  rw [Run.ends_loop (charRound_steady m)]
  constructor
  · rintro ⟨as, h⟩
    induction h with
    | @leave a hleave =>
      obtain ⟨⟨-, hstop⟩, hz⟩ := (ends_charRound w (by omega)).1 hleave
      exact ⟨a, Nat.le_refl _, hstop, by by_contra hne; rw [if_neg hne] at hz; cases hz⟩
    | @record a b as hstep _ ih =>
      obtain ⟨⟨-, hstop⟩, hnext⟩ := (ends_charRound w (by omega)).1 hstep
      split_ifs at hnext
      rw [add64_of_lt (by omega)] at hnext
      cases hnext
      obtain ⟨z, hz, hrest⟩ := ih (by omega) (by omega)
      exact ⟨z, by omega, hrest⟩
  · rintro ⟨z, haz, hz, hzero⟩
    -- a byte before the terminator leaves less of the way to it
    have hround : ∀ a, lo ≤ a ∧ a ≤ z → Run.Ends P (charRound m · a) none ∨
        ∃ b, Run.Ends P (charRound m · a) (some b) ∧ (lo ≤ b ∧ b ≤ z) ∧ z - b < z - a := by
      rintro a ⟨hlo, haz⟩
      by_cases ha0 : m a = 0
      · exact .inl ((ends_charRound w (by omega)).2 ⟨by omega, by rw [if_pos ha0]⟩)
      · have hne : a ≠ z := fun heq => ha0 (heq ▸ hzero)
        refine .inr ⟨a + 1, (ends_charRound w (by omega)).2 ⟨by omega, ?_⟩, by omega, by omega⟩
        rw [if_neg ha0, add64_of_lt (by omega)]
    exact exists_walked _ _ hround a ⟨hlo, haz⟩

end

/-! ## Branches -/

/-- The fields that the branch for the tag at `p` uses end before `stop`. No end is early enough for a module: its branch
does not come back. -/
def FieldsFit (m : Mem) (stop p : Nat) : Prop :=
  match tagKind m p with
  | .cmdline | .bootLoaderName => ∃ z, p + 8 ≤ z ∧ z < stop ∧ m z = 0
  | .moduleTag => False
  | .basicMeminfo => p + 16 ≤ stop
  | .bootdev => p + 20 ≤ stop
  | .acpiOld => p + 28 ≤ stop
  | .acpiNew => p + 44 ≤ stop
  | .mmap | .endTag | .other => True

/-- The memory map seen last, behind the tag at `p`. -/
def mmapSeen (m : Mem) (p : Nat) (mmap : Option Nat) : Option Nat := if tagKind m p = .mmap then some p else mmap

@[simp] theorem string_offset : offsetOf multibootTagString 2 = 8 := by decide

@[simp] theorem modStart_offset : offsetOf multibootTagModule 2 = 8 := by decide

@[simp] theorem modCmdline_offset : offsetOf multibootTagModule 4 = 16 := by decide

@[simp] theorem multibootTag_size : sizeOfStruct multibootTag = 8 := by decide

@[simp] theorem rsdp_size : sizeOfStruct rsdpMembers = 20 := by decide

@[simp] theorem xsdp_size : sizeOfStruct xsdpMembers = 36 := by decide

theorem handleTag_steady (m : Mem) (p : Nat) (o : Option Nat) : Run.Steady (handleTag m · p o) := by
  unfold handleTag
  cases tagKind m p with
  | cmdline | bootLoaderName => exact (writeStr_steady m _).bind fun _ => .const _
  | moduleTag =>
    exact Run.Steady.bind (.const _) fun _ => (writeStr_steady m _).bind fun _ => .const _
  | _ => exact .const _

section
variable {P : BootEvent → Prop} {lo stop : Nat} {m : Mem} {n p q : Nat} {o o' : Option Nat}

/-- A branch that reads `n` bytes behind the head of the tag. -/
theorem ends_readFields (w : Window P lo stop) (hlo : lo ≤ p) (hp : p < 2 ^ 37) (hn : 0 < n) (hn' : n < 256) :
    Run.Ends P (fun _ => do readBytes (p + 8) n; return o) o' ↔ p + (8 + n) ≤ stop ∧ o = o' := by
  rw [Run.ends_bind_pure (.const _), ← Nat.add_assoc]
  refine and_congr_left fun _ => ⟨fun ⟨_, h⟩ => ((ends_readBytes w hn (by omega)).1 h).2, fun h => ?_⟩
  exact ⟨(), (ends_readBytes w hn (by omega)).2 ⟨by omega, h⟩⟩

/-- The branch for a module does not come back. -/
theorem tarMb2Init_not_ends (r : Int) : ¬Run.Ends P (fun _ => tarMb2Init m p) r := by
  rintro ⟨n, hres, -⟩
  unfold tarMb2Init at hres
  obtain ⟨-, -, hres⟩ := Run.bind_result_eq_ok.1 hres
  cases hcount : tarCountFiles (byteAt m) (modStart m p) (sub64 (modEnd m p) (modStart m p)) with
  | error e =>
    rw [hcount] at hres
    cases hres
  | ok count =>
    rw [hcount] at hres
    obtain ⟨-, -, hres⟩ := Run.bind_result_eq_ok.1 hres
    cases hres

/-- A branch ends exactly if its fields fit. -/
theorem ends_handleTag (w : Window P lo stop) (hlo : lo ≤ p) (hp : p < 2 ^ 36) :
    Run.Ends P (handleTag m · p o) o' ↔ FieldsFit m stop p ∧ mmapSeen m p o = o' := by
  unfold handleTag FieldsFit mmapSeen
  cases tagKind m p with
  | cmdline | bootLoaderName =>
    dsimp only
    rw [Run.ends_bind_pure (writeStr_steady m _), string_offset, add64_of_lt (by omega),
      ends_writeStr w (by omega) (by omega)]
    simp
  | moduleTag =>
    refine iff_of_false (fun h => ?_) fun h => h.1
    dsimp only at h
    obtain ⟨-, -, h⟩ := (Run.ends_bind (.const _) fun _ => (writeStr_steady m _).bind fun _ => .const _).1 h
    obtain ⟨-, -, h⟩ := (Run.ends_bind (writeStr_steady m _) fun _ => .const _).1 h
    obtain ⟨r, hr⟩ := ((Run.ends_bind_pure (.const _)).1 h).1
    exact tarMb2Init_not_ends r hr
  | basicMeminfo | bootdev | acpiOld | acpiNew =>
    simp only [multibootTag_size, rsdp_size, xsdp_size]
    rw [ends_readFields w hlo (by omega) (by omega) (by omega)]
    simp
  | mmap | endTag | other => simp

end

/-! ## Rounds -/

/-- The tag at `p` is the last one. -/
def LastTag (m : Mem) (stop p : Nat) : Prop := tagKind m p = .endTag ∧ p + 4 ≤ stop

/-- The tag at `p` is not the last, its head and the fields in use end before `stop`, and the next tag is at `q`. -/
def TagThen (m : Mem) (stop p q : Nat) : Prop :=
  tagKind m p ≠ .endTag ∧ p + 8 ≤ stop ∧ FieldsFit m stop p ∧ q = p + tagStride m p

@[simp] theorem tagType_offset : offsetOf multibootTag 0 = 0 := by decide

@[simp] theorem tagSize_offset : offsetOf multibootTag 1 = 4 := by decide

section
variable {P : BootEvent → Prop} {lo stop : Nat} {m : Mem} {p q : Nat} {o o' : Option Nat}

theorem nextTag_eq (hp : p < 2 ^ 36) : nextTag m p = p + tagStride m p := by
  have hlt : tagStride m p < 2 ^ 32 := BitVec.isLt _
  exact add64_of_lt (by omega)

theorem tagRound_end (hend : tagKind m p = .endTag) (fuel : Nat) :
    tagRound m fuel (p, o) = do readBytes p 4; return none := by
  simp only [tagRound, tagType_offset, Nat.add_zero, hend, if_true]

/-- A round behind its branch. -/
def goOn (m : Mem) (p : Nat) (mmap : Option Nat) : Run BootEvent (Option (Nat × Option Nat)) := do
  readBytes (p + 4) 4
  return some (nextTag m p, mmap)

theorem tagRound_tag (hend : tagKind m p ≠ .endTag) (fuel : Nat) :
    tagRound m fuel (p, o) = readBytes p 4 >>= fun _ => handleTag m fuel p o >>= goOn m p := by
  simp only [tagRound, tagType_offset, tagSize_offset, Nat.add_zero, hend, if_false]
  rfl

theorem handleTag_goOn_steady (m : Mem) (p : Nat) (o : Option Nat) :
    Run.Steady fun fuel => handleTag m fuel p o >>= goOn m p :=
  (handleTag_steady m p o).bind fun _ => .const _

theorem tagRound_steady (m : Mem) (s : Nat × Option Nat) : Run.Steady (tagRound m · s) := by
  obtain ⟨p, o⟩ := s
  by_cases hend : tagKind m p = .endTag
  · simp only [tagRound_end hend]
    exact .const _
  · simp only [tagRound_tag hend]
    exact Run.Steady.bind (.const _) fun _ => handleTag_goOn_steady m p o

theorem entryRound_steady (image : KernelImage) (tag : Nat) (s : Mem × Nat) : Run.Steady (entryRound image tag · s) :=
  .const _

/-- A round over a tag that is not the last is the read of its type, its branch, and the read of its size. -/
theorem ends_tagRound_tag (hend : tagKind m p ≠ .endTag) {next : Option (Nat × Option Nat)} :
    Run.Ends P (tagRound m · (p, o)) next ↔ Run.Ends P (fun _ => readBytes p 4) () ∧
      ∃ o', Run.Ends P (handleTag m · p o) o' ∧ Run.Ends P (fun _ => readBytes (p + 4) 4) () ∧
        some (nextTag m p, o') = next := by
  have hgoOn : ∀ o', Run.Ends P (fun _ => goOn m p o') next ↔
      Run.Ends P (fun _ => readBytes (p + 4) 4) () ∧ some (nextTag m p, o') = next := by
    intro o'
    unfold goOn
    rw [Run.ends_bind_pure (.const (readBytes (p + 4) 4)), Unique.exists_iff]
  simp only [tagRound_tag hend]
  rw [Run.ends_bind (.const (readBytes p 4)) fun _ => handleTag_goOn_steady m p o,
    Run.ends_bind (handleTag_steady m p o) fun _ => .const (goOn m p _), Unique.exists_iff]
  simp only [hgoOn]

/-- The loop ends at the end tag. -/
theorem ends_tagRound_none (w : Window P lo stop) (hlo : lo ≤ p) (hp : p < 2 ^ 36) :
    Run.Ends P (tagRound m · (p, o)) none ↔ LastTag m stop p := by
  unfold LastTag
  by_cases hend : tagKind m p = .endTag
  · simp only [tagRound_end hend, true_and, hend]
    rw [Run.ends_bind_pure (.const _)]
    refine ⟨fun ⟨⟨_, h⟩, _⟩ => ((ends_readBytes w (by decide) (by omega)).1 h).2, fun h => ⟨⟨(), ?_⟩, rfl⟩⟩
    exact (ends_readBytes w (by decide) (by omega)).2 ⟨hlo, h⟩
  · refine iff_of_false (fun h => ?_) fun h => hend h.1
    obtain ⟨-, o', -, -, hnext⟩ := (ends_tagRound_tag hend).1 h
    cases hnext

/-- The loop goes on to the next tag if what it uses of this one fits. -/
theorem ends_tagRound_some (w : Window P lo stop) (hlo : lo ≤ p) (hp : p < 2 ^ 36) :
    Run.Ends P (tagRound m · (p, o)) (some (q, o')) ↔ TagThen m stop p q ∧ mmapSeen m p o = o' := by
  unfold TagThen
  by_cases hend : tagKind m p = .endTag
  · refine iff_of_false (fun h => ?_) fun h => h.1.1 hend
    simp only [tagRound_end hend] at h
    cases ((Run.ends_bind_pure (.const _)).1 h).2
  · rw [ends_tagRound_tag hend, ends_readBytes w (by decide) (by omega), ends_readBytes w (by decide) (by omega)]
    simp only [ends_handleTag w hlo hp, nextTag_eq hp, Option.some.injEq, Prod.mk.injEq]
    constructor
    · rintro ⟨-, r, ⟨hfit, hseen⟩, ⟨-, hread⟩, hq, ho⟩
      exact ⟨⟨hend, by omega, hfit, hq.symm⟩, hseen.trans ho⟩
    · rintro ⟨⟨-, hstop, hfit, hq⟩, hseen⟩
      exact ⟨by omega, o', ⟨hfit, hseen⟩, by omega, hq.symm, rfl⟩

end

end Icarus.Boot
