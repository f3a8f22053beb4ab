/-
The task state segment and its descriptor (TSS.c, gdt.c), and the processor's rule for port access from
ring 3 over the bytes they leave: the permission bitmap starts inside the segment, on its stack pointers.
-/
import Icarus.Memory.StructPage

namespace Icarus.Gdt

open Icarus.Base Icarus.Memory

/-! ## The task state segment -/

/-- `tss_t`, packed. -/
structure Tss where
  reserved0 : BitVec 32
  rsp0 : BitVec 64
  rsp1 : BitVec 64
  rsp2 : BitVec 64
  reserved1 : BitVec 64
  ist1 : BitVec 64
  ist2 : BitVec 64
  ist3 : BitVec 64
  ist4 : BitVec 64
  ist5 : BitVec 64
  ist6 : BitVec 64
  ist7 : BitVec 64
  reserved2 : BitVec 64
  reserved3 : BitVec 16
  iomapBase : BitVec 16

/-- The `n` bytes of a field, the least significant first. -/
def fieldBytes {w : Nat} (n : Nat) (v : BitVec w) : List (BitVec 8) :=
  (List.range n).map fun i => v.extractLsb' (8 * i) 8

@[simp] theorem length_fieldBytes {w : Nat} (n : Nat) (v : BitVec w) : (fieldBytes n v).length = n := by
  simp [fieldBytes]

theorem fieldBytes_zero (w n : Nat) : fieldBytes n (0 : BitVec w) = List.replicate n 0 := by
  rw [List.eq_replicate_iff]
  refine ⟨length_fieldBytes n _, ?_⟩
  intro b hb
  obtain ⟨i, -, rfl⟩ := List.mem_map.1 hb
  simp

/-- The segment as it lies in memory. -/
def Tss.bytes (tss : Tss) : List (BitVec 8) :=
  fieldBytes 4 tss.reserved0 ++ fieldBytes 8 tss.rsp0 ++ fieldBytes 8 tss.rsp1 ++ fieldBytes 8 tss.rsp2 ++
    fieldBytes 8 tss.reserved1 ++ fieldBytes 8 tss.ist1 ++ fieldBytes 8 tss.ist2 ++ fieldBytes 8 tss.ist3 ++
    fieldBytes 8 tss.ist4 ++ fieldBytes 8 tss.ist5 ++ fieldBytes 8 tss.ist6 ++ fieldBytes 8 tss.ist7 ++
    fieldBytes 8 tss.reserved2 ++ fieldBytes 2 tss.reserved3 ++ fieldBytes 2 tss.iomapBase

/-- `sizeof(tss_t)`. -/
def sizeofTss : Nat := 104

theorem Tss.length_bytes (tss : Tss) : tss.bytes.length = sizeofTss := by simp [Tss.bytes, sizeofTss]

/-- `sizeof(tss)` in `init_tss`, where `tss` is a pointer. -/
def sizeofTssPointer : Nat := 8

/-- `TSS_STACK_PAGES`. -/
def tssStackPages : Nat := 4

/-- `TSS_IOPB_OFFSET`, which nothing uses. -/
def tssIopbOffset : Nat := 0x67

/-- `tss_alloc_stack`. -/
def tssAllocStack (mmap : MemMap) : Nat × MemMap :=
  let (phys, mmap) := iallocKframe mmap tssStackPages
  if phys = frameAllocFailed then (frameAllocFailed, mmap)
  else
    let base := add64 phys kernelVma
    (alignDown (add64 base (tssStackPages * defaultPageSize)) 16, mmap)

/-- The addresses `init_tss` stores, that of `rsp0` and those of the interrupt stacks. -/
structure TssStacks where
  rsp0 : Nat
  ist1 : Nat
  ist2 : Nat
  ist3 : Nat
  ist4 : Nat
  ist5 : Nat
  ist6 : Nat
  ist7 : Nat

/-- The stores of `init_tss` into the cleared segment. -/
def TssStacks.fill (tops : TssStacks) : Tss where
  reserved0 := 0
  rsp0 := tops.rsp0
  rsp1 := 0
  rsp2 := 0
  reserved1 := 0
  ist1 := tops.ist1
  ist2 := tops.ist2
  ist3 := tops.ist3
  ist4 := tops.ist4
  ist5 := tops.ist5
  ist6 := tops.ist6
  ist7 := tops.ist7
  reserved2 := 0
  reserved3 := 0
  iomapBase := sizeofTssPointer

/-- `init_tss`. -/
def initTss (mmap : MemMap) : Tss × MemMap :=
  let (rsp0, mmap) := tssAllocStack mmap
  let (ist1, mmap) := tssAllocStack mmap
  let (ist2, mmap) := tssAllocStack mmap
  let (ist3, mmap) := tssAllocStack mmap
  let (ist4, mmap) := tssAllocStack mmap
  let (ist5, mmap) := tssAllocStack mmap
  let (ist6, mmap) := tssAllocStack mmap
  let (ist7, mmap) := tssAllocStack mmap
  (TssStacks.fill ⟨rsp0, ist1, ist2, ist3, ist4, ist5, ist6, ist7⟩, mmap)

theorem initTss_fill (mmap : MemMap) : ∃ tops : TssStacks, (initTss mmap).1 = tops.fill := by
  unfold initTss
  exact ⟨⟨_, _, _, _, _, _, _, _⟩, rfl⟩

/-! ## The descriptors -/

/-- `gdt_entry_t`. -/
structure GdtEntry where
  limitLow : BitVec 16
  baseLow : BitVec 16
  baseMid : BitVec 8
  access : BitVec 8
  granularity : BitVec 8
  baseHigh : BitVec 8

/-- `gdt_set_entry`, the entry it stores. -/
def gdtSetEntry (base limit : BitVec 32) (access flags : BitVec 8) : GdtEntry where
  limitLow := limit.setWidth 16
  baseLow := base.setWidth 16
  baseMid := (base >>> 16).setWidth 8
  access := access
  granularity := (flags &&& 0xF0) ||| ((limit >>> 16).setWidth 8 &&& 0x0F)
  baseHigh := (base >>> 24).setWidth 8

/-- `gdt_entry_hi_t` as it is copied over an entry: the upper half of the base, then zeros. -/
def gdtEntryHi (baseUpper32 : BitVec 32) : GdtEntry where
  limitLow := baseUpper32.setWidth 16
  baseLow := (baseUpper32 >>> 16).setWidth 16
  baseMid := 0
  access := 0
  granularity := 0
  baseHigh := 0

/-- The table `gdt_init` builds, for the address of `tss`. -/
def gdtInit (tssBase : BitVec 64) : List GdtEntry :=
  [gdtSetEntry 0 0 0 0, gdtSetEntry 0 0xFFFFFFFF 0x9A 0xA0, gdtSetEntry 0 0xFFFFFFFF 0x92 0xC0,
    gdtSetEntry 0 0xFFFFFFFF 0xF2 0xC0, gdtSetEntry 0 0xFFFFFFFF 0xFA 0xA0,
    gdtSetEntry (tssBase.setWidth 32) (BitVec.ofNat 32 (sizeofTss - 1)) 0x89 0x00,
    gdtEntryHi ((tssBase >>> 32).setWidth 32)]

/-- The selector that `tss_flush` loads. -/
def tssSelector : Nat := 0x28

/-- The limit the processor takes from a descriptor: 20 bits, in pages if the granularity bit is set. -/
def GdtEntry.limit (e : GdtEntry) : Nat :=
  let limit := e.limitLow.toNat + e.granularity.toNat % 16 * 2 ^ 16
  if e.granularity.getLsbD 7 then limit * 4096 + 4095 else limit

/-- The limit of the segment that the task register names. -/
def tssLimit (gdt : List GdtEntry) : Nat := ((gdt[tssSelector / 8]?).map GdtEntry.limit).getD 0

theorem tssLimit_gdtInit (tssBase : BitVec 64) : tssLimit (gdtInit tssBase) = sizeofTss - 1 := by
  have hentry : (gdtInit tssBase)[tssSelector / 8]? =
      some (gdtSetEntry (tssBase.setWidth 32) (BitVec.ofNat 32 (sizeofTss - 1)) 0x89 0x00) := rfl
  unfold tssLimit
  rw [hentry]
  simp only [Option.map_some, Option.getD_some, GdtEntry.limit, gdtSetEntry]
  decide

/-! ## Port access from ring 3 -/

/-- Bit `i` of the bytes of the segment. -/
def Tss.bit (tss : Tss) (i : Nat) : Bool := (tss.bytes.getD (i / 8) 0).getLsbD (i % 8)

/-- The processor's rule with an I/O privilege level of 0: the byte of the port's bit and the one behind it
lie within the limit, and the bits of all `width` ports are clear. -/
def PortAllowed (tss : Tss) (limit p width : Nat) : Prop :=
  tss.iomapBase.toNat + p / 8 + 1 ≤ limit ∧ ∀ i, i < width → tss.bit (8 * tss.iomapBase.toNat + p + i) = false

/-- Ring 3 reaches no port, by a byte, a word or a double word. -/
def DeniesUserPorts (tss : Tss) (gdt : List GdtEntry) : Prop :=
  ∀ p, p < 2 ^ 16 → ∀ width ∈ [1, 2, 4], ¬PortAllowed tss (tssLimit gdt) p width

/-- A bitmap whose first word is outside the limit denies every port. -/
theorem denies_of_limit_le {tss : Tss} {gdt : List GdtEntry} (h : tssLimit gdt ≤ tss.iomapBase.toNat) :
    DeniesUserPorts tss gdt := by
  rintro p - width - ⟨hin, -⟩
  omega

/-- With the offset that the header of `TSS.c` defines there would be no bitmap, and no port access. -/
theorem denies_tssIopbOffset (tops : TssStacks) (tssBase : BitVec 64) :
    DeniesUserPorts { tops.fill with iomapBase := tssIopbOffset } (gdtInit tssBase) :=
  denies_of_limit_le (le_of_eq (tssLimit_gdtInit tssBase))

/-- `rsp1`, `rsp2` and the reserved quadword behind them stay cleared. -/
theorem fill_byte_zero (tops : TssStacks) {k : Nat} (h1 : 12 ≤ k) (h2 : k < 36) :
    tops.fill.bytes.getD k 0 = 0 := by
  -- the twelve bytes before these fields, their own bytes, and the rest
  have hsplit : tops.fill.bytes = (fieldBytes 4 (0 : BitVec 32) ++ fieldBytes 8 (tops.rsp0 : BitVec 64)) ++
      (List.replicate 24 0 ++ (fieldBytes 8 (tops.ist1 : BitVec 64) ++ fieldBytes 8 (tops.ist2 : BitVec 64) ++
        fieldBytes 8 (tops.ist3 : BitVec 64) ++ fieldBytes 8 (tops.ist4 : BitVec 64) ++
        fieldBytes 8 (tops.ist5 : BitVec 64) ++ fieldBytes 8 (tops.ist6 : BitVec 64) ++
        fieldBytes 8 (tops.ist7 : BitVec 64) ++ fieldBytes 8 (0 : BitVec 64) ++ fieldBytes 2 (0 : BitVec 16) ++
        fieldBytes 2 (sizeofTssPointer : BitVec 16))) := by
    rw [show List.replicate 24 (0 : BitVec 8) =
      fieldBytes 8 (0 : BitVec 64) ++ (fieldBytes 8 (0 : BitVec 64) ++ fieldBytes 8 (0 : BitVec 64)) from by
        simp only [fieldBytes_zero, List.replicate_append_replicate]]
    simp only [Tss.bytes, TssStacks.fill, List.append_assoc]
  rw [hsplit, List.getD_append_right _ _ _ _ (by simpa using h1), List.getD_append _ _ _ _ (by simp; omega),
    List.getD_replicate _ (by simp; omega)]

/-- The ports whose bits lie in these fields are open, whatever the stack addresses are. -/
theorem port_allowed_of_cleared (tops : TssStacks) (tssBase : BitVec 64) {p width : Nat} (h1 : 32 ≤ p)
    (h2 : p + width ≤ 224) (h3 : 1 ≤ width) :
    PortAllowed tops.fill (tssLimit (gdtInit tssBase)) p width := by
  have hbase : tops.fill.iomapBase.toNat = 8 := rfl
  rw [tssLimit_gdtInit]
  unfold PortAllowed sizeofTss
  rw [hbase]
  refine ⟨by omega, fun i hi => ?_⟩
  unfold Tss.bit
  rw [fill_byte_zero tops (by omega) (by omega)]
  simp

/-- The segment and the table that `init_tss` and `gdt_init` build never deny all ports to ring 3. -/
theorem user_ports_not_denied (tops : TssStacks) (tssBase : BitVec 64) :
    ¬DeniesUserPorts tops.fill (gdtInit tssBase) := by
  intro h
  have hopen : PortAllowed tops.fill (tssLimit (gdtInit tssBase)) 0x60 1 :=
    port_allowed_of_cleared tops tssBase (by decide) (by decide) (le_refl _)
  exact h 0x60 (by decide) 1 (by decide) hopen

/-- The data port of the keyboard controller, with eight stacks from 1 MiB on. -/
theorem keyboard_port_open :
    ¬DeniesUserPorts
      (TssStacks.fill ⟨0xFFFFFFFF80104000, 0xFFFFFFFF80108000, 0xFFFFFFFF8010C000, 0xFFFFFFFF80110000,
        0xFFFFFFFF80114000, 0xFFFFFFFF80118000, 0xFFFFFFFF8011C000, 0xFFFFFFFF80120000⟩)
      (gdtInit 0xFFFFFFFF80012340) := by
  intro h
  refine h 0x60 (by decide) 1 (by decide) ⟨by decide, fun i hi => ?_⟩
  interval_cases i
  rfl

end Icarus.Gdt
