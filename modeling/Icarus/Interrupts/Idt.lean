/-
The interrupt descriptor table (IDT.c) as the processor reads it: every vector leads to its own stub in the code segment
of the kernel, on the stack that the state segment has for it, and no program outside the kernel can call one.
-/
import Icarus.Gdt.Descriptors

namespace Icarus.Interrupts

open Icarus.Base Icarus.Gdt

/-! ## The table -/

/-- `idt_entry_t`. -/
structure IdtEntry where
  isrLow : BitVec 16
  kernelCs : BitVec 16
  ist : BitVec 8
  attributes : BitVec 8
  isrMid : BitVec 16
  isrHigh : BitVec 32
  reserved : BitVec 32

/-- `GDT_OFFSET_KERNEL_CODE`. -/
def gdtOffsetKernelCode : BitVec 16 := 0x8

/-- `idt_set_descriptor`, the entry it stores. -/
def idtSetDescriptor (isr : BitVec 64) (flags ist : BitVec 8) : IdtEntry where
  isrLow := isr.setWidth 16
  kernelCs := gdtOffsetKernelCode
  ist := ist
  attributes := flags
  isrMid := (isr >>> 16).setWidth 16
  isrHigh := (isr >>> 32).setWidth 32
  reserved := 0

/-- The table `idt_init` builds, for the addresses of the stubs. -/
def idtInit (isrTable : Nat → BitVec 64) : List IdtEntry :=
  ((List.range 256).map fun v => idtSetDescriptor (isrTable v) 0x8E 0).modify 8 fun e => { e with ist := 1 }

/-- An entry in memory. -/
def IdtEntry.bytes (e : IdtEntry) : List (BitVec 8) :=
  fieldBytes 2 e.isrLow ++ fieldBytes 2 e.kernelCs ++ fieldBytes 1 e.ist ++ fieldBytes 1 e.attributes ++
    fieldBytes 2 e.isrMid ++ fieldBytes 4 e.isrHigh ++ fieldBytes 4 e.reserved

@[simp] theorem IdtEntry.length_bytes (e : IdtEntry) : e.bytes.length = 16 := by simp [IdtEntry.bytes]

/-! ## The processor -/

/-- What the processor takes from an entry. -/
structure Gate where
  offset : BitVec 64
  selector : BitVec 16
  ist : BitVec 3
  kind : BitVec 4
  dpl : BitVec 2
  present : Bool
  deriving DecidableEq

/-- The gate at `a`. -/
def gateAt (m : Mem) (a : Nat) : Gate where
  offset := m.load (a + 8) 4 ++ m.load (a + 6) 2 ++ m.load a 2
  selector := m.load (a + 2) 2
  ist := (m.load (a + 4) 1).setWidth 3
  kind := (m.load (a + 5) 1).setWidth 4
  dpl := (m.load (a + 5) 1).extractLsb' 5 2
  present := (m.load (a + 5) 1).getLsbD 7

/-- The gate of a vector in a table that `lidt` loaded with `sizeof(idt) - 1` for its limit. -/
def gateOf (idt : List IdtEntry) (vector : BitVec 8) : Option Gate :=
  if 16 * vector.toNat + 15 ≤ 16 * idt.length - 1 then
    some (gateAt (bytesMem (idt.flatMap IdtEntry.bytes)) (16 * vector.toNat))
  else none

/-- Where the stack for an interrupt begins: the gate may name one, a program outside the kernel gets `rsp0`. -/
def interruptTop (tss : Mem) (gate : Gate) (c : Cpu) : BitVec 64 :=
  if gate.ist ≠ 0 then tss.load64 (28 + 8 * gate.ist.toNat)
  else if c.cs.setWidth 2 = 0 then c.rsp
  else tss.load64 4

/-! ## Reading back -/

theorem IdtEntry.loads (e : IdtEntry) :
    (bytesMem e.bytes).load 0 2 = e.isrLow ∧ (bytesMem e.bytes).load 2 2 = e.kernelCs ∧
      (bytesMem e.bytes).load 4 1 = e.ist ∧ (bytesMem e.bytes).load 5 1 = e.attributes ∧
      (bytesMem e.bytes).load 6 2 = e.isrMid ∧ (bytesMem e.bytes).load 8 4 = e.isrHigh := by
  have hsame : ∀ {w : Nat} (v : BitVec w), v.setWidth w = v := fun v => BitVec.setWidth_eq v
  refine ⟨?_, ?_, ?_, ?_, ?_, ?_⟩
  · exact (load_field [] (v := e.isrLow) (n := 2) (by simp only [bytes, List.append_assoc]; rfl) rfl).trans
      (hsame _)
  · exact (load_field (fieldBytes 2 e.isrLow) (v := e.kernelCs) (n := 2)
      (by simp only [bytes, List.append_assoc]; rfl) (by simp)).trans (hsame _)
  · exact (load_field (fieldBytes 2 e.isrLow ++ fieldBytes 2 e.kernelCs) (v := e.ist) (n := 1)
      (by simp only [bytes, List.append_assoc]; rfl) (by simp)).trans (hsame _)
  · exact (load_field (fieldBytes 2 e.isrLow ++ fieldBytes 2 e.kernelCs ++ fieldBytes 1 e.ist)
      (v := e.attributes) (n := 1) (by simp only [bytes, List.append_assoc]; rfl) (by simp)).trans (hsame _)
  · exact (load_field (fieldBytes 2 e.isrLow ++ fieldBytes 2 e.kernelCs ++ fieldBytes 1 e.ist ++
      fieldBytes 1 e.attributes) (v := e.isrMid) (n := 2) (by simp only [bytes, List.append_assoc]; rfl)
      (by simp)).trans (hsame _)
  · exact (load_field (fieldBytes 2 e.isrLow ++ fieldBytes 2 e.kernelCs ++ fieldBytes 1 e.ist ++
      fieldBytes 1 e.attributes ++ fieldBytes 2 e.isrMid) (v := e.isrHigh) (n := 4)
      (by simp only [bytes, List.append_assoc]; rfl) (by simp)).trans (hsame _)

/-- A vector leads where its entry says. -/
theorem gateOf_entry {idt : List IdtEntry} {vector : BitVec 8} {e : IdtEntry} (h : idt[vector.toNat]? = some e) :
    gateOf idt vector = some ⟨e.isrHigh ++ e.isrMid ++ e.isrLow, e.kernelCs, e.ist.setWidth 3, e.attributes.setWidth 4,
      e.attributes.extractLsb' 5 2, e.attributes.getLsbD 7⟩ := by
  have hlt := (List.getElem?_eq_some_iff.1 h).1
  obtain ⟨h₀, h₂, h₄, h₅, h₆, h₈⟩ := e.loads
  have hload : ∀ off n, off + n ≤ 16 → (bytesMem (idt.flatMap IdtEntry.bytes)).load (16 * vector.toNat + off) n =
      (bytesMem e.bytes).load off n := fun off n hoff => load_array IdtEntry.length_bytes h hoff
  have hload₀ := hload 0 2 (by decide)
  rw [Nat.add_zero] at hload₀
  unfold gateOf gateAt
  rw [if_pos (by omega), hload₀, hload 2 2 (by decide), hload 4 1 (by decide), hload 5 1 (by decide),
    hload 6 2 (by decide), hload 8 4 (by decide), h₀, h₂, h₄, h₅, h₆, h₈]

/-- The three parts of an address. -/
theorem isr_parts (isr : BitVec 64) :
    (isr >>> 32).setWidth 32 ++ (isr >>> 16).setWidth 16 ++ isr.setWidth 16 = isr := by
  apply BitVec.eq_of_getLsbD_eq
  intro i hi
  simp only [BitVec.getLsbD_append, BitVec.getLsbD_setWidth, BitVec.getLsbD_ushiftRight]
  by_cases h16 : i < 16
  · simp [h16]
  · by_cases h32 : i < 32
    · simp [h16, show i - 16 < 16 by omega, show 16 + (i - 16) = i by omega]
    · simp [h16, show ¬i - 16 < 16 by omega, show i - 16 - 16 < 32 by omega, show 32 + (i - 16 - 16) = i by omega]

theorem idtInit_entry (isrTable : Nat → BitVec 64) (vector : BitVec 8) :
    (idtInit isrTable)[vector.toNat]? =
      some { idtSetDescriptor (isrTable vector.toNat) 0x8E 0 with ist := if vector = 8 then 1 else 0 } := by
  have hlt : vector.toNat < 256 := vector.isLt
  unfold idtInit
  rw [List.getElem?_modify, List.getElem?_map, List.getElem?_range hlt]
  by_cases h8 : vector = 8
  · subst h8
    rfl
  · have hne : ¬8 = vector.toNat := fun h => h8 (BitVec.eq_of_toNat_eq h.symm)
    rw [if_neg h8]
    simp only [if_neg hne]
    rfl

theorem gateOf_idtInit (isrTable : Nat → BitVec 64) (vector : BitVec 8) : gateOf (idtInit isrTable) vector =
    some ⟨isrTable vector.toNat, gdtOffsetKernelCode, if vector = 8 then 1 else 0, 0xE, 0, true⟩ := by
  rw [gateOf_entry (idtInit_entry isrTable vector)]
  dsimp only [idtSetDescriptor]
  rw [isr_parts]
  by_cases h8 : vector = 8
  · rw [if_pos h8, if_pos h8]
    rfl
  · rw [if_neg h8, if_neg h8]
    rfl

/-! ## Taking an interrupt -/

/-- The stacks of the state segment, read from its bytes. -/
theorem tss_stacks (tops : TssStacks) : (bytesMem tops.fill.bytes).load64 4 = tops.rsp0 ∧
    (bytesMem tops.fill.bytes).load64 36 = tops.ist1 := by
  have hsame : ∀ {w : Nat} (v : BitVec w), v.setWidth w = v := fun v => BitVec.setWidth_eq v
  constructor
  · exact (load_field (fieldBytes 4 (0 : BitVec 32)) (v := (tops.rsp0 : BitVec 64)) (n := 8)
      (by simp only [Tss.bytes, TssStacks.fill, List.append_assoc]; rfl) (by simp)).trans (hsame _)
  · exact (load_field (fieldBytes 4 (0 : BitVec 32) ++ fieldBytes 8 (tops.rsp0 : BitVec 64) ++
      fieldBytes 8 (0 : BitVec 64) ++ fieldBytes 8 (0 : BitVec 64) ++ fieldBytes 8 (0 : BitVec 64))
      (v := (tops.ist1 : BitVec 64)) (n := 8) (by simp only [Tss.bytes, TssStacks.fill, List.append_assoc]; rfl)
      (by simp)).trans (hsame _)

/-- For every vector, wherever the stubs, the tables and the stacks lie and whatever is interrupted: the gate is a
present interrupt gate to the vector's own stub in the kernel's code segment, closed to `int` from outside the kernel;
the double fault is taken on the first interrupt stack, every other interrupt of a program outside the kernel on `rsp0`
and of the kernel where it is. -/
theorem interrupt_delivered (isrTable : Nat → BitVec 64) (tssBase : BitVec 64) (tops : TssStacks) (vector : BitVec 8)
    (c : Cpu) : ∃ gate, gateOf (idtInit isrTable) vector = some gate ∧ gate.offset = isrTable vector.toNat ∧
      gate.present = true ∧ gate.kind = 0xE ∧ gate.dpl = 0 ∧
      (∃ s, segmentOf (gdtInit tssBase) gate.selector = some s ∧ s.isCode = true ∧ s.dpl = 0) ∧
      interruptTop (bytesMem tops.fill.bytes) gate c =
        if vector = 8 then (tops.ist1 : BitVec 64) else if c.cs.setWidth 2 = 0 then c.rsp else (tops.rsp0 : BitVec 64) := by
  obtain ⟨hrsp0, hist1⟩ := tss_stacks tops
  refine ⟨_, gateOf_idtInit isrTable vector, rfl, rfl, rfl, rfl, (runsAt_kernel tssBase).code, ?_⟩
  unfold interruptTop
  by_cases h8 : vector = 8
  · subst h8
    rw [if_pos rfl]
    exact hist1
  · rw [if_neg h8, if_neg h8, hrsp0]
    rfl

end Icarus.Interrupts
