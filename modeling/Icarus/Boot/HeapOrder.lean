/-
Whether the heap is used before it exists (kernel.c, multiboot2.c, tar_parse.c): `kmain` calls `alloc_init` behind
`handle_multiboot2`, whose branch for a module calls `Imalloc`.
-/
import Icarus.Boot.TagRounds

namespace Icarus.Boot

open Icarus.Base Icarus.Memory
open Icarus.Files (tarCountFiles)

/-- Every call of the heap comes behind the return of `alloc_init`. -/
def HeapAfterInit (es : List BootEvent) : Prop := Run.Preceded (fun e => ∃ call, e = .heap call) (· = .allocInit) es

/-- The branch for the module at `p` gets to its call of the heap: the command line ends, and `tar_count_files` comes
back with this number. -/
def ModuleCounted (m : Mem) (p count : Nat) : Prop :=
  tagKind m p = .moduleTag ∧ (∃ z, p + 16 ≤ z ∧ z < bootMappedEnd ∧ m z = 0) ∧
    tarCountFiles (byteAt m) (modStart m p) (sub64 (modEnd m p) (modStart m p)) = .ok count

/-- The tags before a module are as the loop needs them, and its branch gets to its call of the heap. -/
def ModuleReached (m : Mem) (addr : Nat) : Prop :=
  ∃ p count, Relation.ReflTransGen (TagThen m bootMappedEnd) (addr + 8) p ∧ ModuleCounted m p count

/-! ## What is not a read -/

section
variable {m : Mem} {a n p q addr : Nat} {o o' : Option Nat} {e : BootEvent}

theorem not_mem_readBytes (he : ∀ a, e ≠ .read a) : e ∉ (readBytes a n).events := by
  intro h
  obtain ⟨x, -, rfl⟩ := List.mem_map.1 h
  exact he x rfl

theorem not_does_writeStr (he : ∀ a, e ≠ .read a) : ¬Run.Does (writeStr m · a) e := by
  unfold writeStr
  rw [Run.does_loop (charRound_steady m)]
  rintro ⟨b, -, k, hk⟩
  dsimp only at hk
  unfold charRound at hk
  rcases Run.mem_bind.1 hk with hk | ⟨-, -, hk⟩
  · exact not_mem_readBytes he hk
  · cases hk

/-- The heap is called with the number of files. -/
theorem mem_tarMb2Init (he : ∀ a, e ≠ .read a) :
    e ∈ (tarMb2Init m p).events ↔ (readBytes (p + 8) 8).result = .ok () ∧
      ∃ count, tarCountFiles (byteAt m) (modStart m p) (sub64 (modEnd m p) (modStart m p)) = .ok count ∧
        e = .heap (.imalloc (u64 (8 * count))) := by
  unfold tarMb2Init
  rw [modStart_offset, Run.mem_bind, or_iff_right (not_mem_readBytes he), Unique.exists_iff]
  refine and_congr_right fun _ => ?_
  cases tarCountFiles (byteAt m) (modStart m p) (sub64 (modEnd m p) (modStart m p)) with
  | error err => simp [Run.fault]
  | ok count => simp [Run.mem_bind, Run.emit, Run.fault]

theorem readBytes_ok_iff (hn : 0 < n) (ha : a + n < 2 ^ 38) :
    (readBytes a n).result = .ok () ↔ a + n ≤ bootMappedEnd := by
  have h := ends_readBytes window_true hn ha
  rw [Run.ends_true] at h
  simpa [Run.Returns] using h

/-- The branch for a module calls the heap if it gets that far. -/
theorem does_moduleTag (he : ∀ a, e ≠ .read a) (hp : p < 2 ^ 36) (hkind : tagKind m p = .moduleTag) :
    Run.Does (handleTag m · p o) e ↔
      ∃ count, ModuleCounted m p count ∧ e = .heap (.imalloc (u64 (8 * count))) := by
  have htar : Run.Steady fun _ : Nat => tarMb2Init m p >>= fun _ => (pure o : Run BootEvent _) := .const _
  have hstr := (writeStr_steady m (add64 p 16)).bind fun _ => htar
  have hends := ends_writeStr (m := m) (a := p + 16) window_true (Nat.zero_le _) (by omega)
  simp only [Run.ends_true] at hends
  unfold handleTag ModuleCounted
  simp only [hkind, modStart_offset, modCmdline_offset, true_and]
  rw [Run.does_bind (.const (readBytes (p + 8) 8)) fun _ => hstr, Run.does_const,
    or_iff_right (not_mem_readBytes he), Unique.exists_iff, Run.does_bind (writeStr_steady m _) fun _ => htar,
    or_iff_right (not_does_writeStr he)]
  simp only [Run.does_const, Run.mem_bind, Run.pure_events, List.not_mem_nil, and_false, exists_false, or_false,
    mem_tarMb2Init he, exists_and_right]
  rw [add64_of_lt (by omega), hends]
  constructor
  · rintro ⟨-, hstring, -, count, hcount, hcall⟩
    exact ⟨count, ⟨hstring, hcount⟩, hcall⟩
  · rintro ⟨count, ⟨⟨z, hz⟩, hcount⟩, hcall⟩
    have hread : (readBytes (p + 8) 8).result = .ok () := (readBytes_ok_iff (by decide) (by omega)).2 (by omega)
    exact ⟨⟨0, hread⟩, ⟨z, hz⟩, hread, count, hcount, hcall⟩

/-- No other branch does anything but read. -/
theorem does_handleTag (he : ∀ a, e ≠ .read a) (hp : p < 2 ^ 36) :
    Run.Does (handleTag m · p o) e ↔
      ∃ count, ModuleCounted m p count ∧ e = .heap (.imalloc (u64 (8 * count))) := by
  by_cases hkind : tagKind m p = .moduleTag
  · exact does_moduleTag he hp hkind
  · refine iff_of_false ?_ fun ⟨_, hcounted, _⟩ => hkind hcounted.1
    unfold handleTag
    cases hk : tagKind m p with
    | moduleTag => exact absurd hk hkind
    | cmdline | bootLoaderName =>
      dsimp only
      rw [Run.does_bind (writeStr_steady m _) fun _ => .const _, or_iff_right (not_does_writeStr he)]
      rintro ⟨-, -, h⟩
      simp at h
    | basicMeminfo | bootdev | acpiOld | acpiNew =>
      simp [Run.mem_bind, not_mem_readBytes he]
    | mmap | endTag | other => simp

/-- A round calls the heap exactly in the branch for a module. -/
theorem does_tagRound (he : ∀ a, e ≠ .read a) (hp : p < 2 ^ 36) :
    Run.Does (tagRound m · (p, o)) e ↔
      ∃ count, ModuleCounted m p count ∧ e = .heap (.imalloc (u64 (8 * count))) := by
  by_cases hend : tagKind m p = .endTag
  · refine iff_of_false ?_ fun ⟨_, hcounted, _⟩ => ?_
    · simp [tagRound_end hend, Run.mem_bind, not_mem_readBytes he]
    · cases hend.symm.trans hcounted.1
  · have hgoOn : ∀ mmap, ¬Run.Does (fun _ => goOn m p mmap) e := fun mmap => by
      simp [goOn, Run.mem_bind, not_mem_readBytes he]
    simp only [tagRound_tag hend]
    rw [Run.does_bind (.const (readBytes p 4)) fun _ => handleTag_goOn_steady m p o, Run.does_const,
      or_iff_right (not_mem_readBytes he), Run.does_bind (handleTag_steady m p o) fun _ => .const (goOn m p _)]
    constructor
    · rintro ⟨-, -, hdoes | ⟨mmap, -, hdoes⟩⟩
      · exact (does_handleTag he hp).1 hdoes
      · exact absurd hdoes (hgoOn mmap)
    · rintro ⟨count, hcounted, hcall⟩
      obtain ⟨z, hz⟩ := hcounted.2.1
      have hread : (readBytes p 4).result = .ok () := (readBytes_ok_iff (by decide) (by omega)).2 (by omega)
      exact ⟨(), ⟨0, hread⟩, .inl ((does_handleTag he hp).2 ⟨count, hcounted, hcall⟩)⟩

/-! ## The loop -/

theorem steps_iff (hp : p < 2 ^ 36) :
    Run.Steps (tagRound m) (p, o) (q, o') ↔ TagThen m bootMappedEnd p q ∧ mmapSeen m p o = o' := by
  unfold Run.Steps
  rw [← Run.ends_true]
  exact ends_tagRound_some window_true (Nat.zero_le _) hp

/-- The next tag is not far above mapped memory. -/
theorem TagThen.lt (h : TagThen m bootMappedEnd p q) : q < 2 ^ 36 := by
  obtain ⟨-, h8, -, hnext⟩ := h
  have hstride : tagStride m p < 2 ^ 32 := BitVec.isLt _
  have hend : bootMappedEnd = 20 * 0x200000 := rfl
  omega

theorem reached_lt (hp : p < 2 ^ 36) (h : Relation.ReflTransGen (TagThen m bootMappedEnd) p q) : q < 2 ^ 36 := by
  rcases Relation.ReflTransGen.cases_tail h with rfl | ⟨_, -, hlast⟩
  · exact hp
  · exact hlast.lt

/-- The tags that the loop comes to. -/
theorem reaches_iff (haddr : addr < 2 ^ 32) :
    (∃ mmap, Relation.ReflTransGen (Run.Steps (tagRound m)) (addr + 8, none) (p, mmap)) ↔
      Relation.ReflTransGen (TagThen m bootMappedEnd) (addr + 8) p := by
  have hstart : addr + 8 < 2 ^ 36 := by omega
  constructor
  · rintro ⟨mmap, h⟩
    have hall : ∀ s, Relation.ReflTransGen (Run.Steps (tagRound m)) (addr + 8, none) s →
        Relation.ReflTransGen (TagThen m bootMappedEnd) (addr + 8) s.1 := by
      intro s hs
      induction hs with
      | refl => exact .refl
      | tail _ hstep ih => exact ih.tail ((steps_iff (reached_lt hstart ih)).1 hstep).1
    exact hall _ h
  · intro h
    induction h with
    | refl => exact ⟨none, .refl⟩
    | @tail p q hreach hthen ih =>
      obtain ⟨mmap, hmmap⟩ := ih
      exact ⟨_, hmmap.tail ((steps_iff (reached_lt hstart hreach)).2 ⟨hthen, rfl⟩)⟩

theorem does_tagLoop (he : ∀ a, e ≠ .read a) (haddr : addr < 2 ^ 32) :
    Run.Does (tagLoop m · (add64 addr 8)) e ↔ ∃ p count,
      Relation.ReflTransGen (TagThen m bootMappedEnd) (addr + 8) p ∧ ModuleCounted m p count ∧
        e = .heap (.imalloc (u64 (8 * count))) := by
  unfold tagLoop
  rw [Run.does_loop (tagRound_steady m), add64_of_lt (by omega)]
  constructor
  · rintro ⟨⟨p, mmap⟩, hreach, hdoes⟩
    have hreach := (reaches_iff haddr).1 ⟨mmap, hreach⟩
    obtain ⟨count, hcounted, hcall⟩ := (does_tagRound he (reached_lt (by omega) hreach)).1 hdoes
    exact ⟨p, count, hreach, hcounted, hcall⟩
  · rintro ⟨p, count, hreach, hcounted, hcall⟩
    obtain ⟨mmap, hmmap⟩ := (reaches_iff haddr).2 hreach
    exact ⟨(p, mmap), hmmap, (does_tagRound he (reached_lt (by omega) hreach)).2 ⟨count, hcounted, hcall⟩⟩

theorem reached_le (h : Relation.ReflTransGen (TagThen m bootMappedEnd) p q) : p ≤ q := by
  induction h with
  | refl => exact Nat.le_refl _
  | tail _ hthen ih =>
    have hnext := hthen.2.2.2
    omega

theorem not_mem_entryLoop (he : ∀ a, e ≠ .read a) (image : KernelImage) (tag fuel : Nat) :
    e ∉ (entryLoop image tag m fuel).events := by
  intro hmem
  have hdoes : Run.Does (entryLoop image tag m) e := ⟨fuel, hmem⟩
  unfold entryLoop at hdoes
  obtain ⟨s, -, k, hk⟩ := (Run.does_loop (entryRound_steady image tag)).1 hdoes
  dsimp only at hk
  unfold entryRound at hk
  split_ifs at hk with hin <;> simp [Run.mem_bind, not_mem_readBytes he, Run.quiet] at hk

end

/-! ## The boot -/

section
variable {s : BootState} {e : BootEvent} {fuel : Nat} {initReturns : Bool} {later : Run BootEvent Unit}

/-- All that `handle_multiboot2` does besides reads it does in its loop. -/
theorem mem_handleMultiboot2 (he : ∀ a, e ≠ .read a) :
    e ∈ (handleMultiboot2 s fuel).events ↔ s.magic = multiboot2BootloaderMagic ∧ s.addr &&& 7 = 0 ∧
      (readBytes s.addr 4).result = .ok () ∧ e ∈ (tagLoop s.mem fuel (add64 s.addr 8)).events := by
  unfold handleMultiboot2
  by_cases hmagic : s.magic = multiboot2BootloaderMagic
  · by_cases halign : s.addr &&& 7 = 0
    · simp only [hmagic, halign, ne_eq, not_true, if_false, true_and]
      rw [Run.mem_bind, or_iff_right (not_mem_readBytes he), Unique.exists_iff]
      refine and_congr_right fun _ => Run.mem_bind.trans (or_iff_left ?_)
      -- behind the loop everything only reads
      rintro ⟨⟨tag, mmap⟩, -, hmem⟩
      cases mmap with
      | none => simp [Run.mem_bind, not_mem_readBytes he] at hmem
      | some mmap => simp [Run.mem_bind, not_mem_readBytes he, not_mem_entryLoop he, Run.quiet] at hmem
    · simp [hmagic, halign]
  · simp [hmagic]

/-- In `kmain` the order is a matter of `handle_multiboot2`. -/
theorem kmain_heapAfterInit (h : s.addr < 2 ^ 32) :
    HeapAfterInit (kmain s initReturns later fuel).events ↔
      ∀ e ∈ (handleMultiboot2 s fuel).events, ¬∃ call, e = .heap call := by
  have hinit : ∀ e ∈ (handleMultiboot2 s fuel).events, ¬e = .allocInit := by
    rintro e hmem rfl
    have hread : ∀ a, BootEvent.allocInit ≠ .read a := by simp
    obtain ⟨-, -, -, hloop⟩ := (mem_handleMultiboot2 hread).1 hmem
    obtain ⟨p, count, -, -, hcall⟩ := (does_tagLoop hread h).1 ⟨fuel, hloop⟩
    cases hcall
  unfold HeapAfterInit kmain
  rw [Run.preceded_bind hinit, and_iff_left]
  intro err _
  split_ifs
  · exact Run.preceded_nil
  · show Run.Preceded _ _ (BootEvent.allocInit :: later.events)
    refine Run.preceded_cons ?_ ?_ _
    · rfl
    · rintro ⟨call, hcall⟩
      cases hcall
  · exact Run.preceded_nil

/-- The heap is used before it exists exactly if the boot loader passes a module that the loop comes to: its branch stands
in front of `alloc_init`. -/
theorem heap_after_init_iff (h : s.addr < 2 ^ 32) :
    (∀ fuel, HeapAfterInit (kmain s initReturns later fuel).events) ↔
      ¬(s.magic = multiboot2BootloaderMagic ∧ s.addr &&& 7 = 0 ∧ ModuleReached s.mem s.addr) := by
  simp only [kmain_heapAfterInit h]
  constructor
  · rintro hnone ⟨hmagic, halign, p, count, hreach, hcounted⟩
    have hread : ∀ a, BootEvent.heap (.imalloc (u64 (8 * count))) ≠ .read a := by simp
    obtain ⟨fuel, hloop⟩ := (does_tagLoop hread h).2 ⟨p, count, hreach, hcounted, rfl⟩
    obtain ⟨z, hz⟩ := hcounted.2.1
    have hle := reached_le hreach
    have hsize : (readBytes s.addr 4).result = .ok () := (readBytes_ok_iff (by decide) (by omega)).2 (by omega)
    exact hnone fuel _ ((mem_handleMultiboot2 hread).2 ⟨hmagic, halign, hsize, hloop⟩) ⟨_, rfl⟩
  · rintro hno fuel e hmem ⟨call, rfl⟩
    have hread : ∀ a, BootEvent.heap call ≠ .read a := by simp
    obtain ⟨hmagic, halign, -, hloop⟩ := (mem_handleMultiboot2 hread).1 hmem
    obtain ⟨p, count, hreach, hcounted, -⟩ := (does_tagLoop hread h).1 ⟨fuel, hloop⟩
    exact hno ⟨hmagic, halign, p, count, hreach, hcounted⟩

end

/-- Boot information at address 0 that is nothing but the end tag. -/
def noTags : Mem
  | 0 => 16
  | 12 => 8
  | _ => 0

/-- A boot with it. -/
def noTagsBoot : BootState :=
  ⟨multiboot2BootloaderMagic, 0, noTags, ⟨0x100000, 0xFFFFFFFF80140000⟩, 0x200000⟩

theorem heap_after_init_noTags :
    ¬ModuleReached noTags 0 ∧ ∀ fuel, HeapAfterInit (kmain noTagsBoot true (pure ()) fuel).events := by
  have hno : ¬ModuleReached noTags 0 := by
    rintro ⟨p, count, hreach, hcounted⟩
    -- the first tag is the last
    rcases Relation.ReflTransGen.cases_head hreach with rfl | ⟨q, hthen, -⟩
    · exact absurd hcounted.1 (by decide)
    · exact absurd (by decide) hthen.1
  exact ⟨hno, (heap_after_init_iff (by decide)).2 fun h => hno h.2.2⟩

/-- Boot information at address 0: the module of grub.cfg, which is a block of zeros, and the end tag. -/
def oneModule : Mem
  | 0 => 40
  | 8 => 3
  | 12 => 23
  | 17 => 16
  | 21 => 20
  | 24 => 105
  | 25 => 110
  | 26 => 105
  | 27 => 116
  | 28 => 114
  | 29 => 100
  | 36 => 8
  | _ => 0

/-- A boot with it. -/
def oneModuleBoot : BootState :=
  ⟨multiboot2BootloaderMagic, 0, oneModule, ⟨0x100000, 0xFFFFFFFF80140000⟩, 0x200000⟩

/-- `Imalloc` is the last thing the boot gets to. -/
theorem oneModule_heap_first : ¬∀ fuel, HeapAfterInit (kmain oneModuleBoot true (pure ()) fuel).events := by
  intro h
  have hevents : (kmain oneModuleBoot true (pure ()) 9).events =
      (kmain oneModuleBoot true (pure ()) 9).events.dropLast ++ [.heap (.imalloc 0)] := by decide +kernel
  obtain ⟨g, hg, rfl⟩ := h 9 _ _ [] hevents ⟨_, rfl⟩
  exact absurd hg (by decide +kernel)

end Icarus.Boot
