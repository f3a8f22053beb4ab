/-
The descriptors as the processor reads them (gdt.c, IDT.c): the fields of an entry scattered over a packed record come
back from its bytes whatever they are, the tables that `gdt_init` and `idt_init` build say what they are meant to say at
any address, and every selector the kernel loads names a segment of its own privilege.
-/
import Icarus.Gdt.Tss
import Icarus.Processes.Thread
import Icarus.Syscall.Entry

namespace Icarus.Gdt

open Icarus.Base Icarus.Interrupts Icarus.Memory Icarus.Processes Icarus.Syscall

/-! ## Packed records -/

/-- The memory that begins with these bytes. -/
def bytesMem (bytes : List (BitVec 8)) : Mem := fun i => bytes.getD i 0

theorem load_bytesMem_append (pre post : List (BitVec 8)) {bytes : List (BitVec 8)} {off n : Nat}
    (h : off + n ≤ bytes.length) :
    Mem.load (bytesMem (pre ++ (bytes ++ post))) (pre.length + off) n = Mem.load (bytesMem bytes) off n := by
  refine Mem.load_shift fun x hx => ?_
  unfold bytesMem
  rw [List.getD_append_right _ _ _ _ (by omega), List.getD_append _ _ _ _ (by omega)]
  exact congrArg (bytes.getD · 0) (by omega)

/-- A field is read as it was written. -/
theorem load_fieldBytes {w : Nat} (n : Nat) (v : BitVec w) :
    Mem.load (bytesMem (fieldBytes n v)) 0 n = v.setWidth (8 * n) := by
  apply BitVec.eq_of_getLsbD_eq
  intro i hi
  have hlt : i / 8 < n := by omega
  rw [Mem.load_getLsbD _ _ _ _ hi, Nat.zero_add]
  unfold bytesMem fieldBytes
  rw [List.getD_eq_getElem _ _ (by simpa using hlt), List.getElem_map, List.getElem_range, BitVec.getLsbD_extractLsb',
    BitVec.getLsbD_setWidth, Nat.div_add_mod]
  simp [hi, Nat.mod_lt]

theorem load_field (pre : List (BitVec 8)) {post bytes : List (BitVec 8)} {w : Nat} {n off : Nat} {v : BitVec w}
    (hbytes : bytes = pre ++ (fieldBytes n v ++ post)) (hoff : off = pre.length) :
    Mem.load (bytesMem bytes) off n = v.setWidth (8 * n) := by
  subst hbytes hoff
  have h : Mem.load (bytesMem (pre ++ (fieldBytes n v ++ post))) (pre.length + 0) n = _ :=
    load_bytesMem_append pre post (by simp)
  rw [Nat.add_zero] at h
  rw [h, load_fieldBytes]

theorem load_last_field (pre : List (BitVec 8)) {bytes : List (BitVec 8)} {w : Nat} {n off : Nat} {v : BitVec w}
    (hbytes : bytes = pre ++ fieldBytes n v) (hoff : off = pre.length) :
    Mem.load (bytesMem bytes) off n = v.setWidth (8 * n) :=
  load_field pre (hbytes.trans (by rw [List.append_nil])) hoff

/-- An entry of an array of records of `size` bytes. -/
theorem load_array {α : Type} {bytes : α → List (BitVec 8)} {size : Nat} (hsize : ∀ a, (bytes a).length = size)
    {as : List α} {i off n : Nat} {a : α} (hi : as[i]? = some a) (hoff : off + n ≤ size) :
    Mem.load (bytesMem (as.flatMap bytes)) (size * i + off) n = Mem.load (bytesMem (bytes a)) off n := by
  obtain ⟨hlt, rfl⟩ := List.getElem?_eq_some_iff.1 hi
  have hsplit : as.flatMap bytes = (as.take i).flatMap bytes ++ (bytes as[i] ++ (as.drop (i + 1)).flatMap bytes) := by
    conv_lhs => rw [← List.take_append_drop i as, List.drop_eq_getElem_cons hlt]
    rw [List.flatMap_append, List.flatMap_cons]
  have hlen : ((as.take i).flatMap bytes).length = size * i := by
    have hsum : ((as.take i).map fun a => (bytes a).length).sum = (as.take i).length * size := by
      simp only [hsize]
      simp
    rw [List.length_flatMap, hsum, List.length_take_of_le hlt.le, Nat.mul_comm]
  rw [hsplit, ← hlen]
  exact load_bytesMem_append _ _ (by rw [hsize]; exact hoff)

/-! ## Segments -/

/-- `gdt_entry_t` in memory. -/
def GdtEntry.bytes (e : GdtEntry) : List (BitVec 8) :=
  fieldBytes 2 e.limitLow ++ fieldBytes 2 e.baseLow ++ fieldBytes 1 e.baseMid ++ fieldBytes 1 e.access ++
    fieldBytes 1 e.granularity ++ fieldBytes 1 e.baseHigh

@[simp] theorem GdtEntry.length_bytes (e : GdtEntry) : e.bytes.length = 8 := by simp [GdtEntry.bytes]

/-- What the processor takes from a descriptor. -/
@[ext] structure Segment where
  base : BitVec 32
  limit : BitVec 20
  access : BitVec 8
  flags : BitVec 4
  deriving DecidableEq

/-- The descriptor at `a`. -/
def segmentAt (m : Mem) (a : Nat) : Segment where
  base := m.load (a + 7) 1 ++ m.load (a + 4) 1 ++ m.load (a + 2) 2
  limit := (m.load (a + 6) 1).setWidth 4 ++ m.load a 2
  access := m.load (a + 5) 1
  flags := (m.load (a + 6) 1).extractLsb' 4 4

/-- Where the descriptor of a selector lies in the table. -/
def descriptorOffset (selector : BitVec 16) : Nat := 8 * (selector.toNat / 8)

/-- The segment a selector names in a table that `lgdt` loaded with `sizeof(gdt) - 1` for its limit. -/
def segmentOf (gdt : List GdtEntry) (selector : BitVec 16) : Option Segment :=
  if descriptorOffset selector + 7 ≤ 8 * gdt.length - 1 then
    some (segmentAt (bytesMem (gdt.flatMap GdtEntry.bytes)) (descriptorOffset selector))
  else none

/-- The fields of an entry, read from its bytes. -/
theorem GdtEntry.loads (e : GdtEntry) :
    (bytesMem e.bytes).load 0 2 = e.limitLow ∧ (bytesMem e.bytes).load 2 2 = e.baseLow ∧
      (bytesMem e.bytes).load 4 1 = e.baseMid ∧ (bytesMem e.bytes).load 5 1 = e.access ∧
      (bytesMem e.bytes).load 6 1 = e.granularity ∧ (bytesMem e.bytes).load 7 1 = e.baseHigh := by
  have hsame : ∀ {w : Nat} (v : BitVec w), v.setWidth w = v := fun v => BitVec.setWidth_eq v
  refine ⟨?_, ?_, ?_, ?_, ?_, ?_⟩
  · exact (load_field [] (v := e.limitLow) (n := 2) (by simp only [bytes, List.append_assoc]; rfl) rfl).trans
      (hsame _)
  · exact (load_field (fieldBytes 2 e.limitLow) (v := e.baseLow) (n := 2)
      (by simp only [bytes, List.append_assoc]; rfl) (by simp)).trans (hsame _)
  · exact (load_field (fieldBytes 2 e.limitLow ++ fieldBytes 2 e.baseLow) (v := e.baseMid) (n := 1)
      (by simp only [bytes, List.append_assoc]; rfl) (by simp)).trans (hsame _)
  · exact (load_field (fieldBytes 2 e.limitLow ++ fieldBytes 2 e.baseLow ++ fieldBytes 1 e.baseMid)
      (v := e.access) (n := 1) (by simp only [bytes, List.append_assoc]; rfl) (by simp)).trans (hsame _)
  · exact (load_field (fieldBytes 2 e.limitLow ++ fieldBytes 2 e.baseLow ++ fieldBytes 1 e.baseMid ++
      fieldBytes 1 e.access) (v := e.granularity) (n := 1) (by simp only [bytes, List.append_assoc]; rfl)
      (by simp)).trans (hsame _)
  · exact (load_last_field (fieldBytes 2 e.limitLow ++ fieldBytes 2 e.baseLow ++ fieldBytes 1 e.baseMid ++
      fieldBytes 1 e.access ++ fieldBytes 1 e.granularity) (v := e.baseHigh) (n := 1) rfl (by simp)).trans (hsame _)

/-- A descriptor, from the fields of its entry. -/
theorem segmentAt_bytes (e : GdtEntry) : segmentAt (bytesMem e.bytes) 0 =
    ⟨e.baseHigh ++ e.baseMid ++ e.baseLow, e.granularity.setWidth 4 ++ e.limitLow, e.access,
      e.granularity.extractLsb' 4 4⟩ := by
  obtain ⟨h₀, h₂, h₄, h₅, h₆, h₇⟩ := e.loads
  unfold segmentAt
  rw [Nat.zero_add, Nat.zero_add, Nat.zero_add, Nat.zero_add, Nat.zero_add, h₀, h₂, h₄, h₅, h₆, h₇]

/-- A selector names the entry at its index. -/
theorem segmentOf_entry {gdt : List GdtEntry} {selector : BitVec 16} {e : GdtEntry}
    (h : gdt[selector.toNat / 8]? = some e) : segmentOf gdt selector = some (segmentAt (bytesMem e.bytes) 0) := by
  have hlt := (List.getElem?_eq_some_iff.1 h).1
  unfold segmentOf descriptorOffset
  rw [if_pos (by omega)]
  have hload : ∀ off n, off + n ≤ 8 → (bytesMem (gdt.flatMap GdtEntry.bytes)).load (8 * (selector.toNat / 8) + off) n =
      (bytesMem e.bytes).load off n := fun off n hoff => load_array GdtEntry.length_bytes h hoff
  unfold segmentAt
  have h₀ := hload 0 2 (by decide)
  rw [Nat.add_zero] at h₀
  rw [h₀, hload 2 2 (by decide), hload 4 1 (by decide), hload 5 1 (by decide), hload 6 1 (by decide),
    hload 7 1 (by decide)]

/-- The nibbles of `granularity`. -/
theorem gdtSetEntry_granularity (base limit : BitVec 32) (access flags : BitVec 8) {k : Nat} (hk : k < 4) :
    (gdtSetEntry base limit access flags).granularity.getLsbD k = limit.getLsbD (16 + k) ∧
      (gdtSetEntry base limit access flags).granularity.getLsbD (4 + k) = flags.getLsbD (4 + k) := by
  have hmask : ((0xF0 : Nat) : BitVec 8).getLsbD k = false ∧ (0x0F : BitVec 8).getLsbD k = true ∧
      ((0xF0 : Nat) : BitVec 8).getLsbD (4 + k) = true ∧ (0x0F : BitVec 8).getLsbD (4 + k) = false := by
    interval_cases k <;> decide
  obtain ⟨h₁, h₂, h₃, h₄⟩ := hmask
  unfold gdtSetEntry
  dsimp only
  rw [BitVec.getLsbD_or, BitVec.getLsbD_and, BitVec.getLsbD_and, BitVec.getLsbD_or, BitVec.getLsbD_and,
    BitVec.getLsbD_and, h₁, h₂, h₃, h₄, BitVec.getLsbD_setWidth, BitVec.getLsbD_ushiftRight]
  simp [show k < 8 by omega]

/-- The fields of a segment, put together again. -/
theorem segmentAt_gdtSetEntry (base limit : BitVec 32) (access flags : BitVec 8) :
    segmentAt (bytesMem (gdtSetEntry base limit access flags).bytes) 0 =
      ⟨base, limit.setWidth 20, access, flags.extractLsb' 4 4⟩ := by
  rw [segmentAt_bytes]
  refine Segment.ext ?_ ?_ rfl ?_
  · apply BitVec.eq_of_getLsbD_eq
    intro i hi
    simp only [gdtSetEntry, BitVec.getLsbD_append, BitVec.getLsbD_setWidth, BitVec.getLsbD_ushiftRight]
    by_cases h16 : i < 16
    · simp [h16]
    · by_cases h24 : i < 24
      · simp [h16, show i - 16 < 8 by omega, show 16 + (i - 16) = i by omega]
      · simp [h16, show ¬i - 16 < 8 by omega, show i - 16 - 8 < 8 by omega, show 24 + (i - 16 - 8) = i by omega]
  · apply BitVec.eq_of_getLsbD_eq
    intro i hi
    rw [BitVec.getLsbD_append, BitVec.getLsbD_setWidth, BitVec.getLsbD_setWidth]
    by_cases h16 : i < 16
    · simp [h16, hi, gdtSetEntry]
    · rw [(gdtSetEntry_granularity base limit access flags (show i - 16 < 4 by omega)).1]
      simp [h16, hi, show i - 16 < 4 by omega, show 16 + (i - 16) = i by omega]
  · apply BitVec.eq_of_getLsbD_eq
    intro i hi
    rw [BitVec.getLsbD_extractLsb', BitVec.getLsbD_extractLsb',
      (gdtSetEntry_granularity base limit access flags hi).2]

/-- Whatever `gdt_set_entry` is given comes back from the bytes of the table, but for the bits of the limit and of the
flags that an entry has no place for. -/
theorem segmentOf_gdtSetEntry {gdt : List GdtEntry} {selector : BitVec 16} {base limit : BitVec 32}
    {access flags : BitVec 8} (h : gdt[selector.toNat / 8]? = some (gdtSetEntry base limit access flags)) :
    segmentOf gdt selector = some ⟨base, limit.setWidth 20, access, flags.extractLsb' 4 4⟩ := by
  rw [segmentOf_entry h, segmentAt_gdtSetEntry]

/-- The arguments of `gdt_set_entry`. -/
structure EntryArgs where
  base : BitVec 32
  limit : BitVec 32
  access : BitVec 8
  flags : BitVec 8

/-- The entry that `gdt_set_entry` makes of them. -/
def EntryArgs.entry (e : EntryArgs) : GdtEntry := gdtSetEntry e.base e.limit e.access e.flags

/-- What an entry has a place for. -/
def EntryArgs.segment (e : EntryArgs) : Segment := ⟨e.base, e.limit.setWidth 20, e.access, e.flags.extractLsb' 4 4⟩

/-- A table filled by `gdt_set_entry` names for every selector the segment the entry at its index was given, and for
selectors behind the last entry none. Only the index counts here: the bit that chooses the local table, and that a null
selector is refused, are left out. -/
theorem gdt_reads_back (args : List EntryArgs) (selector : BitVec 16) :
    segmentOf (args.map EntryArgs.entry) selector = (args[selector.toNat / 8]?).map EntryArgs.segment := by
  cases h : args[selector.toNat / 8]? with
  | none =>
    rw [List.getElem?_eq_none_iff] at h
    unfold segmentOf descriptorOffset
    rw [List.length_map, if_neg (by omega)]
    rfl
  | some e =>
    have hentry : (args.map EntryArgs.entry)[selector.toNat / 8]? = some e.entry := by
      rw [List.getElem?_map, h]
      rfl
    exact segmentOf_gdtSetEntry hentry

/-! ## The task state segment -/

/-- What `ltr` takes from a descriptor of 16 bytes: the address, the limit and the access byte. -/
def taskSegmentOf (gdt : List GdtEntry) (selector : BitVec 16) : Option (BitVec 64 × BitVec 20 × BitVec 8) :=
  if descriptorOffset selector + 15 ≤ 8 * gdt.length - 1 then
    let m := bytesMem (gdt.flatMap GdtEntry.bytes)
    let low := segmentAt m (descriptorOffset selector)
    some (m.load (descriptorOffset selector + 8) 4 ++ low.base, low.limit, low.access)
  else none

/-- A field split into two halves. -/
theorem fieldBytes_halves (x : BitVec 32) :
    fieldBytes 2 (x.setWidth 16) ++ fieldBytes 2 ((x >>> 16).setWidth 16) = fieldBytes 4 x := by
  have hlow : ∀ k, k + 8 ≤ 16 → (x.setWidth 16).extractLsb' k 8 = x.extractLsb' k 8 :=
    fun k hk => BitVec.extractLsb'_setWidth_of_le hk
  have hhigh : ∀ k, k + 8 ≤ 16 → ((x >>> 16).setWidth 16).extractLsb' k 8 = x.extractLsb' (16 + k) 8 := by
    intro k hk
    rw [BitVec.extractLsb'_setWidth_of_le hk]
    apply BitVec.eq_of_getLsbD_eq
    intro i hi
    rw [BitVec.getLsbD_extractLsb', BitVec.getLsbD_extractLsb', BitVec.getLsbD_ushiftRight, Nat.add_assoc]
  show [(x.setWidth 16).extractLsb' 0 8, (x.setWidth 16).extractLsb' 8 8, ((x >>> 16).setWidth 16).extractLsb' 0 8,
    ((x >>> 16).setWidth 16).extractLsb' 8 8] = _
  rw [hlow 0 (by decide), hlow 8 (by decide), hhigh 0 (by decide), hhigh 8 (by decide)]
  rfl

/-- The upper half of an address, in the two fields that lie where an entry has its limit and its base. -/
theorem gdtEntryHi_load (baseUpper32 : BitVec 32) : (bytesMem (gdtEntryHi baseUpper32).bytes).load 0 4 = baseUpper32 := by
  have hbytes : (gdtEntryHi baseUpper32).bytes = [] ++ (fieldBytes 4 baseUpper32 ++ [0, 0, 0, 0]) := by
    rw [← fieldBytes_halves]
    rfl
  exact (load_field [] (v := baseUpper32) hbytes rfl).trans (BitVec.setWidth_eq _)

/-- `ltr` finds the address of `tss`, wherever it is. -/
theorem taskSegmentOf_gdtInit (tssBase : BitVec 64) : taskSegmentOf (gdtInit tssBase) 0x28 = some (tssBase, 103, 0x89) := by
  have hhigh : (gdtInit tssBase)[6]? = some (gdtEntryHi ((tssBase >>> 32).setWidth 32)) := rfl
  have hlow : segmentOf (gdtInit tssBase) 0x28 = _ := segmentOf_gdtSetEntry rfl
  have hload : (bytesMem ((gdtInit tssBase).flatMap GdtEntry.bytes)).load (descriptorOffset 0x28 + 8) 4 = _ :=
    (load_array GdtEntry.length_bytes hhigh (by decide : 0 + 4 ≤ 8)).trans (gdtEntryHi_load _)
  have hsegment : some (segmentAt (bytesMem ((gdtInit tssBase).flatMap GdtEntry.bytes)) (descriptorOffset 0x28)) = _ :=
    hlow
  have hlimit : descriptorOffset 0x28 + 15 ≤ 8 * (gdtInit tssBase).length - 1 := le_refl 55
  have hbase : (tssBase >>> 32).setWidth 32 ++ tssBase.setWidth 32 = tssBase := by
    apply BitVec.eq_of_getLsbD_eq
    intro i hi
    rw [BitVec.getLsbD_append]
    by_cases h32 : i < 32
    · simp [h32]
    · simp [h32, show i - 32 < 32 by omega, show 32 + (i - 32) = i by omega]
  rw [Option.some.injEq] at hsegment
  unfold taskSegmentOf
  rw [if_pos hlimit]
  dsimp only
  rw [hload, hsegment, hbase]
  rfl

/-! ## The selectors of the kernel -/

/-- A present segment of code in 64 bit mode. -/
def Segment.isCode (s : Segment) : Bool :=
  s.access.getLsbD 7 && s.access.getLsbD 4 && s.access.getLsbD 3 && s.flags.getLsbD 1 && !s.flags.getLsbD 2

/-- A present segment of data that can be written. -/
def Segment.isData (s : Segment) : Bool :=
  s.access.getLsbD 7 && s.access.getLsbD 4 && !s.access.getLsbD 3 && s.access.getLsbD 1

/-- The privilege level of a segment. -/
def Segment.dpl (s : Segment) : BitVec 2 := s.access.extractLsb' 5 2

/-- Code with these selectors runs at privilege `cpl`. -/
structure RunsAt (gdt : List GdtEntry) (cpl : BitVec 2) (cs ss : BitVec 16) : Prop where
  code : ∃ s, segmentOf gdt cs = some s ∧ s.isCode = true ∧ s.dpl = cpl
  data : ∃ s, segmentOf gdt ss = some s ∧ s.isData = true ∧ s.dpl = cpl
  requested : cs.setWidth 2 = cpl ∧ ss.setWidth 2 = cpl

theorem runsAt_kernel (tssBase : BitVec 64) : RunsAt (gdtInit tssBase) 0 0x08 0x10 where
  code := ⟨_, segmentOf_gdtSetEntry rfl, rfl, rfl⟩
  data := ⟨_, segmentOf_gdtSetEntry rfl, rfl, rfl⟩
  requested := ⟨rfl, rfl⟩

theorem runsAt_user (tssBase : BitVec 64) : RunsAt (gdtInit tssBase) 3 0x23 0x1B where
  code := ⟨_, segmentOf_gdtSetEntry rfl, rfl, rfl⟩
  data := ⟨_, segmentOf_gdtSetEntry rfl, rfl, rfl⟩
  requested := ⟨rfl, rfl⟩

/-- The selectors a new thread starts with. -/
theorem startRegisters_selectors (isPrivileged : Bool) :
    (switchThreads (startRegisters isPrivileged)).cs = (if isPrivileged then 0x08 else 0x23) ∧
      (switchThreads (startRegisters isPrivileged)).ss = (if isPrivileged then 0x10 else 0x1B) := by
  unfold switchThreads startRegisters
  dsimp only
  rw [Mem.load64_store64_same, Mem.load64_store64_disjoint _ (by decide), Mem.load64_store64_same]
  cases isPrivileged with
  | true => exact ⟨rfl, rfl⟩
  | false => exact ⟨rfl, rfl⟩

/-- Wherever `tss` lies: a new thread, the kernel behind a `syscall` and the program behind a `sysret` run on segments
of the privilege their selectors ask for, and the task register names the state segment. -/
theorem kernel_selectors (tssBase : BitVec 64) (isPrivileged : Bool) (c : Cpu) :
    RunsAt (gdtInit tssBase) (if isPrivileged then 0 else 3) (switchThreads (startRegisters isPrivileged)).cs
        (switchThreads (startRegisters isPrivileged)).ss ∧
      RunsAt (gdtInit tssBase) 0 (syscall syscallInit c).cs (syscall syscallInit c).ss ∧
      RunsAt (gdtInit tssBase) 3 (sysret syscallInit c).cs (sysret syscallInit c).ss ∧
      taskSegmentOf (gdtInit tssBase) 0x28 = some (tssBase, BitVec.ofNat 20 (sizeofTss - 1), 0x89) := by
  refine ⟨?_, runsAt_kernel tssBase, runsAt_user tssBase, taskSegmentOf_gdtInit tssBase⟩
  obtain ⟨hcs, hss⟩ := startRegisters_selectors isPrivileged
  rw [hcs, hss]
  cases isPrivileged with
  | true => exact runsAt_kernel tssBase
  | false => exact runsAt_user tssBase

end Icarus.Gdt
