/-
The interrupt stubs as machine code (isr.asm) between two things the processor does: it pushes what it interrupts, for
some vectors with an error code, and `iretq` takes it off again. What `c_isr` finds where `rdi` points, and when the
interrupted program goes on as if nothing had happened.
-/
import Icarus.Base.StackMachine
import Icarus.Processes.Preemption

namespace Icarus.Interrupts

open Icarus.Base Icarus.Processes

/-- The registers the stubs and the entries read or exchange besides the general purpose ones. -/
inductive SpecialReg
  | cr2 | cr3 | cr4 | gsBase | kernelGsBase
  deriving DecidableEq, Repr

/-- The processor as the assembly files see it. -/
abbrev Core : Type := Machine Gpr SpecialReg

/-- Their instructions. -/
abbrev Asm : Type := Instr Gpr SpecialReg

/-! ## The code -/

/-- `ISR_NOERR`, up to its jump. -/
def isrNoerrCode (vector : BitVec 8) : List Asm := [.pushImm 0, .pushImm (vector.setWidth 64)]

/-- `ISR_ERR`, up to its jump. -/
def isrErrCode (vector : BitVec 8) : List Asm := [.pushImm (vector.setWidth 64)]

/-- The vectors whose stub is an `ISR_ERR`. -/
def isrErrVectors : List (BitVec 8) := [8, 10, 11, 12, 13, 14, 17, 30]

/-- `common_isr` up to the call. -/
def commonIsrEntry : List Asm :=
  [.push .rax, .push .rcx, .push .rdx, .push .rbx, .push .rbp, .push .rsi, .push .rdi, .push .r8, .push .r9,
    .push .r10, .push .r11, .push .r12, .push .r13, .push .r14, .push .r15,
    .movSpecial .rax .cr2, .push .rax, .movSpecial .rax .cr3, .push .rax, .movSpecial .rax .cr4, .push .rax,
    .leaRsp .rdi]

/-- `common_isr` behind the call, up to its `iretq`. -/
def commonIsrExit : List Asm :=
  [.pop .rax, .pop .rax, .pop .rax,
    .pop .r15, .pop .r14, .pop .r13, .pop .r12, .pop .r11, .pop .r10, .pop .r9, .pop .r8, .pop .rdi, .pop .rsi,
    .pop .rbp, .pop .rbx, .pop .rdx, .pop .rcx, .pop .rax,
    .addRsp 16]

/-- `common_isr`. -/
def commonIsrCode : List Asm := commonIsrEntry ++ .call :: commonIsrExit

/-- The stub `isr_table` has for a vector. -/
def isrStub (vector : BitVec 8) : List Asm :=
  if vector ∈ isrErrVectors then isrErrCode vector else isrNoerrCode vector

/-! ## The processor -/

/-- What the processor pushes when it takes an interrupt, the first one first. -/
def interruptPushes (c : Cpu) (error : Option (BitVec 64)) : List (BitVec 64) :=
  [c.ss.setWidth 64, c.rsp, c.rflags, c.cs.setWidth 64, c.rip] ++ error.toList

/-- The interrupt is taken on a stack that begins at `top`, which the processor aligns. -/
def takeInterrupt (top : BitVec 64) (error : Option (BitVec 64)) (c : Cpu) (special : SpecialReg → BitVec 64)
    (mem : Mem) : Core :=
  (interruptPushes c error).foldl (fun m x => m.push x) ⟨c.gpr, special, top &&& ~~~15, mem⟩

/-- `iretq`: what runs behind it. -/
def iretq (m : Core) : Cpu where
  gpr := m.reg
  rip := m.mem.load64 m.rsp.toNat
  cs := (m.mem.load64 (m.rsp.toNat + 8)).setWidth 16
  rflags := m.mem.load64 (m.rsp.toNat + 16)
  rsp := m.mem.load64 (m.rsp.toNat + 24)
  ss := (m.mem.load64 (m.rsp.toNat + 32)).setWidth 16

/-- The machine when the stub calls `c_isr`. -/
def atCall (vector : BitVec 8) (top : BitVec 64) (error : Option (BitVec 64)) (c : Cpu)
    (special : SpecialReg → BitVec 64) (mem : Mem) : Core :=
  Machine.run id (isrStub vector ++ commonIsrEntry) (takeInterrupt top error c special mem)

/-- The machine behind the `iretq` of the stub, when `c_isr` does what `callee` does. -/
def serviced (callee : Core → Core) (vector : BitVec 8) (top : BitVec 64) (error : Option (BitVec 64)) (c : Cpu)
    (special : SpecialReg → BitVec 64) (mem : Mem) : Cpu :=
  iretq (Machine.run callee (isrStub vector ++ commonIsrCode) (takeInterrupt top error c special mem))

/-! ## The frame -/

/-- `struct interrupt_frame`, with `gpo_regs` under the names of its fields. -/
@[ext] structure InterruptFrame where
  cr4 : BitVec 64
  cr3 : BitVec 64
  cr2 : BitVec 64
  gpoRegs : Gpr → BitVec 64
  vector : BitVec 64
  errorCode : BitVec 64
  rip : BitVec 64
  cs : BitVec 64
  rflags : BitVec 64
  rsp : BitVec 64
  ss : BitVec 64

/-- `offsetof(cpu_reg_frame, r) / 8`. -/
def gpoRegsIndex : Gpr → Nat
  | .r15 => 0
  | .r14 => 1
  | .r13 => 2
  | .r12 => 3
  | .r11 => 4
  | .r10 => 5
  | .r9 => 6
  | .r8 => 7
  | .rbp => 8
  | .rdi => 9
  | .rsi => 10
  | .rdx => 11
  | .rcx => 12
  | .rbx => 13
  | .rax => 14

/-- The frame at `a` as C reads it. -/
def interruptFrameAt (mem : Mem) (a : Nat) : InterruptFrame where
  cr4 := mem.load64 a
  cr3 := mem.load64 (a + 8)
  cr2 := mem.load64 (a + 16)
  gpoRegs r := mem.load64 (a + (gpoRegsOffset + 8 * gpoRegsIndex r))
  vector := mem.load64 (a + (gpoRegsOffset + cpuRegFrameSize))
  errorCode := mem.load64 (a + (gpoRegsOffset + cpuRegFrameSize + 8))
  rip := mem.load64 (a + cpuRegsOffset)
  cs := mem.load64 (a + (cpuRegsOffset + 8))
  rflags := mem.load64 (a + (cpuRegsOffset + 16))
  rsp := mem.load64 (a + (cpuRegsOffset + 24))
  ss := mem.load64 (a + (cpuRegsOffset + 32))

/-! ## What the stub pushes -/

/-- The stack at the call, from what the processor pushed. -/
def stubStack (c : Cpu) (special : SpecialReg → BitVec 64) (rest : Stack) : Stack :=
  commonIsr c.gpr (special .cr2) (special .cr3) (special .cr4) rest

/-- The quadwords between `vector` and the stack of the interrupted program. -/
def pushedBelow (vector : BitVec 8) (error : Option (BitVec 64)) (c : Cpu) : Stack :=
  if vector ∈ isrErrVectors then push (vector.setWidth 64) (error.toList ++ cpuPush c [])
  else isrNoerr (vector.setWidth 64) (error.toList ++ cpuPush c [])

section
variable {c : Cpu} {special : SpecialReg → BitVec 64} {mem : Mem} {top : BitVec 64} {vector : BitVec 8}
  {error : Option (BitVec 64)}

/-- Where the stack begins once the processor has aligned it. -/
abbrev alignedTop (top : BitVec 64) : Nat := (top &&& ~~~15).toNat

/-- The view of the stack at the call, over the 26 quadwords that an interrupt takes at most. -/
def callView (stack : Stack) (reg : Gpr → BitVec 64) (special : SpecialReg → BitVec 64) (top : BitVec 64) (mem : Mem) :
    StackView Gpr SpecialReg where
  reg
  special
  lo := alignedTop top - 8 * 26
  room := 26 - stack.length
  stack
  mem

theorem alignedTop_eq (top : BitVec 64) : alignedTop top = top.toNat / 2 ^ 4 * 2 ^ 4 := by
  rw [← alignDown_two_pow top.isLt (by decide)]
  exact BitVec.toNat_and ..

theorem takeInterrupt_eq_run (callee : Core → Core) : takeInterrupt top error c special mem =
    Machine.run callee ((interruptPushes c error).map .pushImm) ⟨c.gpr, special, top &&& ~~~15, mem⟩ := by
  unfold takeInterrupt Machine.run
  rw [List.foldl_map]
  rfl

/-- The list view of everything up to the call. -/
theorem run_toCall (vector : BitVec 8) (top : BitVec 64) (error : Option (BitVec 64)) (c : Cpu)
    (special : SpecialReg → BitVec 64) (mem : Mem) : ∃ reg,
    StackView.run ((interruptPushes c error).map .pushImm ++ (isrStub vector ++ commonIsrEntry))
      ⟨c.gpr, special, alignedTop top - 8 * 26, 26, [], mem⟩ =
      some (callView (stubStack c special (pushedBelow vector error c)) reg special top mem) ∧
    reg .rdi = BitVec.ofNat 64
      (alignedTop top - 8 * 26 + 8 * (26 - (stubStack c special (pushedBelow vector error c)).length)) := by
  unfold isrStub pushedBelow
  by_cases hv : vector ∈ isrErrVectors
  · rw [if_pos hv, if_pos hv]
    cases error with
    | none => exact ⟨_, rfl, rfl⟩
    | some e => exact ⟨_, rfl, rfl⟩
  · rw [if_neg hv, if_neg hv]
    cases error with
    | none => exact ⟨_, rfl, rfl⟩
    | some e => exact ⟨_, rfl, rfl⟩

theorem run_stub (callee : Core → Core) :
    Machine.run callee (isrStub vector ++ commonIsrEntry) (takeInterrupt top error c special mem) =
      atCall vector top error c special mem := by
  obtain ⟨reg, hview, -⟩ := run_toCall vector top error c special mem
  unfold atCall
  rw [takeInterrupt_eq_run callee, ← Machine.run_append, StackView.run_callee hview callee id, Machine.run_append,
    ← takeInterrupt_eq_run id, ← takeInterrupt_eq_run callee]

/-- What the stub has pushed when it calls `c_isr`, and what it passes. -/
theorem atCall_shows (vector : BitVec 8) (error : Option (BitVec 64)) (c : Cpu) (special : SpecialReg → BitVec 64)
    (mem : Mem) (hroom : 8 * 26 ≤ alignedTop top) : ∃ reg,
    (atCall vector top error c special mem).Shows
      (callView (stubStack c special (pushedBelow vector error c)) reg special top mem) ∧
    reg .rdi = BitVec.ofNat 64
      (alignedTop top - 8 * 26 + 8 * (26 - (stubStack c special (pushedBelow vector error c)).length)) := by
  obtain ⟨reg, hview, hrdi⟩ := run_toCall vector top error c special mem
  have h : Machine.Shows (R := Gpr) (S := SpecialReg) ⟨c.gpr, special, top &&& ~~~15, mem⟩ _ := .initial hroom
  refine ⟨reg, ?_, hrdi⟩
  unfold atCall
  rw [takeInterrupt_eq_run id, ← Machine.run_append]
  exact h.run id hview

/-- The processor pushes an error code exactly where the stub counts on one. -/
def ErrorAsExpected (vector : BitVec 8) (error : Option (BitVec 64)) : Prop :=
  error.isSome = true ↔ vector ∈ isrErrVectors

theorem pushedBelow_expected (herr : ErrorAsExpected vector error) : pushedBelow vector error c =
    push (vector.setWidth 64) (push (error.getD 0) (cpuPush c [])) := by
  unfold pushedBelow
  cases error with
  | none =>
    rw [if_neg fun hv => absurd (herr.2 hv) (by simp)]
    rfl
  | some e =>
    rw [if_pos (herr.1 rfl)]
    rfl

/-- `c_isr` is passed where the stack ends. -/
theorem atCall_rdi (vector : BitVec 8) (error : Option (BitVec 64)) (c : Cpu) (special : SpecialReg → BitVec 64)
    (mem : Mem) (hroom : 8 * 26 ≤ alignedTop top) :
    (atCall vector top error c special mem).rsp = (atCall vector top error c special mem).reg .rdi := by
  obtain ⟨reg, h, hrdi⟩ := atCall_shows vector error c special mem hroom
  rw [h.reg]
  show _ = reg .rdi
  rw [hrdi]
  apply BitVec.eq_of_toNat_eq
  have hrsp := h.rsp
  have hlt := (atCall vector top error c special mem).rsp.isLt
  simp only [callView] at hrsp
  rw [BitVec.toNat_ofNat, Nat.mod_eq_of_lt (by omega)]
  exact hrsp

/-- What C finds in the frame: the registers `common_isr` and `cpu_reg_frame` order differently under each other's
names, everything else as it was. -/
def frameOf (vector : BitVec 8) (error : Option (BitVec 64)) (c : Cpu) (special : SpecialReg → BitVec 64) :
    InterruptFrame where
  cr4 := special .cr4
  cr3 := special .cr3
  cr2 := special .cr2
  gpoRegs := (rotated c).gpr
  vector := vector.setWidth 64
  errorCode := error.getD 0
  rip := c.rip
  cs := c.cs.setWidth 64
  rflags := c.rflags
  rsp := c.rsp
  ss := c.ss.setWidth 64

/-- For every vector and every interrupted program: the frame `c_isr` is passed and where it lies, 8 bytes off the
alignment a call is made with, and that nothing else has changed. -/
theorem c_isr_frame (c : Cpu) (special : SpecialReg → BitVec 64) (mem : Mem) (hroom : 8 * 26 ≤ alignedTop top)
    (herr : ErrorAsExpected vector error) :
    let m := atCall vector top error c special mem
    interruptFrameAt m.mem (m.reg .rdi).toNat = frameOf vector error c special ∧
      (m.reg .rdi).toNat = alignedTop top - 200 ∧ m.rsp = m.reg .rdi ∧ m.rsp.toNat % 16 = 8 ∧
      ∀ x, x < alignedTop top - 208 ∨ alignedTop top ≤ x → m.mem x = mem x := by
  intro m
  obtain ⟨reg, h, -⟩ := atCall_shows vector error c special mem hroom
  have hrsp : m.rsp = m.reg .rdi := atCall_rdi vector error c special mem hroom
  rw [pushedBelow_expected herr] at h
  have ha : (m.reg .rdi).toNat = alignedTop top - 8 * 26 + 8 := by
    rw [← hrsp]
    exact h.rsp
  have hload : ∀ i (hi : i < 25), m.mem.load64 ((m.reg .rdi).toNat + 8 * i) =
      (stubStack c special (push (vector.setWidth 64) (push (error.getD 0) (cpuPush c [])))).get ⟨i, hi⟩ := by
    intro i hi
    rw [ha, show alignedTop top - 8 * 26 + 8 + 8 * i = alignedTop top - 8 * 26 + 8 * (1 + i) by omega]
    exact h.stack i hi
  refine ⟨InterruptFrame.ext (hload 0 (by decide)) (hload 1 (by decide)) (hload 2 (by decide)) (funext fun r => ?_)
    (hload 18 (by decide)) (hload 19 (by decide)) (hload 20 (by decide)) (hload 21 (by decide))
    (hload 22 (by decide)) (hload 23 (by decide)) (hload 24 (by decide)), by omega, hrsp, ?_, fun x hx => h.mem x ?_⟩
  · cases r with
    | rax => exact hload 17 (by decide)
    | rcx => exact hload 15 (by decide)
    | rdx => exact hload 14 (by decide)
    | rbx => exact hload 16 (by decide)
    | rbp => exact hload 11 (by decide)
    | rsi => exact hload 13 (by decide)
    | rdi => exact hload 12 (by decide)
    | r8 => exact hload 10 (by decide)
    | r9 => exact hload 9 (by decide)
    | r10 => exact hload 8 (by decide)
    | r11 => exact hload 7 (by decide)
    | r12 => exact hload 6 (by decide)
    | r13 => exact hload 5 (by decide)
    | r14 => exact hload 4 (by decide)
    | r15 => exact hload 3 (by decide)
  · rw [h.rsp]
    change (alignedTop top - 8 * 26 + 8) % 16 = 8
    have htop := alignedTop_eq top
    omega
  · rcases hx with hx | hx
    · exact .inl hx
    · refine .inr (le_trans (le_of_eq ?_) hx)
      change alignedTop top - 8 * 26 + 8 * (1 + 25) = alignedTop top
      omega

/-- A page fault of a program with 1 in `rbp`, on a stack below 4 KiB: C finds the 1 as `rsi`. -/
theorem c_isr_frame_page_fault :
    let m := atCall 14 0x1000 (some 4) rbpOne (fun _ => 0) (fun _ => 0)
    (interruptFrameAt m.mem (m.reg .rdi).toNat).gpoRegs .rsi = 1 ∧ (m.reg .rdi).toNat = 3896 := by
  obtain ⟨hframe, ha, -⟩ := c_isr_frame rbpOne (fun _ => 0) (fun _ => 0) (by decide : 8 * 26 ≤ alignedTop 0x1000)
    (iff_of_true rfl (by decide) : ErrorAsExpected 14 (some 4))
  exact ⟨by rw [hframe]; rfl, ha.trans (by decide)⟩

/-! ## The way back -/

/-- What `iretq` takes off the list. -/
theorem iretq_of_shows {m : Core} {v : StackView Gpr SpecialReg} (h : m.Shows v) {rip cs rflags rsp ss : BitVec 64}
    {rest : Stack} (hstack : v.stack = rip :: cs :: rflags :: rsp :: ss :: rest) :
    iretq m = ⟨v.reg, rip, cs.setWidth 16, rflags, rsp, ss.setWidth 16⟩ := by
  have hload : ∀ i (hi : i < v.stack.length), m.mem.load64 (m.rsp.toNat + 8 * i) = v.stack[i] := by
    intro i hi
    rw [h.rsp, ← h.stack i hi]
    exact congrArg m.mem.load64 (by omega)
  have hlen : 4 < v.stack.length := by rw [hstack]; simp
  have h₀ := hload 0 (by omega)
  have h₁ := hload 1 (by omega)
  have h₂ := hload 2 (by omega)
  have h₃ := hload 3 (by omega)
  have h₄ := hload 4 (by omega)
  simp only [hstack, List.getElem_cons_zero, List.getElem_cons_succ] at h₀ h₁ h₂ h₃ h₄
  unfold iretq
  rw [h.reg]
  exact Cpu.ext rfl h₀ (congrArg (BitVec.setWidth 16) h₁) h₂ h₃ (congrArg (BitVec.setWidth 16) h₄)

/-- Behind the call, with what the stub pushed still on the stack: the registers come back, and with the next two
quadwords gone the rest is what `iretq` finds. -/
theorem exit_shows {gpr : Gpr → BitVec 64} {cr2 cr3 cr4 x y : BitVec 64} {rest : Stack} {m : Core}
    {v : StackView Gpr SpecialReg} (h : m.Shows v) (hstack : v.stack = commonIsr gpr cr2 cr3 cr4 (x :: y :: rest))
    (callee : Core → Core) :
    ∃ w, (Machine.run callee commonIsrExit m).Shows w ∧ w.reg = gpr ∧ w.stack = rest := by
  obtain ⟨reg, special, lo, room, stack, mem⟩ := v
  subst hstack
  refine ⟨_, h.run callee rfl, funext fun r => ?_, rfl⟩
  cases r <;> rfl

/-- The machine behind the stub shows what the processor pushed, less what the stub takes for its two quadwords. -/
theorem serviced_shows {callee : Core → Core} {x y : BitVec 64} {rest : Stack} (hroom : 8 * 26 ≤ alignedTop top)
    (hkeeps : Machine.KeepsStack callee (rest.length + 20) (atCall vector top error c special mem))
    (hstack : pushedBelow vector error c = x :: y :: rest) :
    ∃ m : Core, ∃ v, m.Shows v ∧ v.reg = c.gpr ∧ v.stack = rest ∧
      serviced callee vector top error c special mem = iretq m := by
  obtain ⟨reg, h, -⟩ := atCall_shows vector error c special mem hroom
  rw [hstack] at h
  have hcall := h.call hkeeps
  obtain ⟨v, hv, hreg, hrest⟩ := exit_shows hcall rfl callee
  refine ⟨_, v, hv, hreg, hrest, ?_⟩
  unfold serviced commonIsrCode
  rw [← List.append_assoc, Machine.run_append, run_stub, Machine.run_cons]
  rfl

/-- An interrupted program goes on as if nothing had happened. -/
theorem serviced_eq {callee : Core → Core} (hroom : 8 * 26 ≤ alignedTop top)
    (hkeeps : Machine.KeepsStack callee 25 (atCall vector top error c special mem))
    (herr : ErrorAsExpected vector error) : serviced callee vector top error c special mem = c := by
  obtain ⟨m, v, h, hreg, hstack, heq⟩ := serviced_shows hroom hkeeps (pushedBelow_expected herr)
  rw [heq, iretq_of_shows h hstack, hreg, BitVec.setWidth_setWidth_of_le _ (by decide), BitVec.setWidth_eq,
    BitVec.setWidth_setWidth_of_le _ (by decide), BitVec.setWidth_eq]

/-- An error code the stub does not count on is taken for the instruction pointer. -/
theorem serviced_unexpected {callee : Core → Core} {e : BitVec 64} (hroom : 8 * 26 ≤ alignedTop top)
    (hkeeps : Machine.KeepsStack callee 26 (atCall vector top (some e) c special mem)) (hv : vector ∉ isrErrVectors) :
    serviced callee vector top (some e) c special mem =
      ⟨c.gpr, e, c.rip.setWidth 16, c.cs.setWidth 64, c.rflags, c.rsp.setWidth 16⟩ := by
  have hbelow : pushedBelow vector (some e) c = vector.setWidth 64 :: 0 :: e :: cpuPush c [] := by
    unfold pushedBelow
    rw [if_neg hv]
    rfl
  obtain ⟨m, v, h, hreg, hstack, heq⟩ := serviced_shows hroom hkeeps hbelow
  rw [heq, iretq_of_shows h hstack, hreg]

/-- An error code the stub counts on in vain takes the instruction pointer with it. -/
theorem serviced_missing {callee : Core → Core} (hroom : 8 * 26 ≤ alignedTop top)
    (hkeeps : Machine.KeepsStack callee 24 (atCall vector top none c special mem)) (hv : vector ∈ isrErrVectors) :
    (serviced callee vector top none c special mem).rip = c.cs.setWidth 64 := by
  have hbelow : pushedBelow vector none c =
      vector.setWidth 64 :: c.rip :: [c.cs.setWidth 64, c.rflags, c.rsp, c.ss.setWidth 64] := by
    unfold pushedBelow
    rw [if_pos hv]
    rfl
  obtain ⟨m, v, h, hreg, hstack, heq⟩ := serviced_shows hroom hkeeps hbelow
  have htop := h.stack 0 (by rw [hstack]; exact Nat.succ_pos _)
  simp only [hstack, List.getElem_cons_zero] at htop
  rw [heq]
  unfold iretq
  dsimp only
  rw [h.rsp]
  exact htop

end

/-- For every vector: whatever runs on, whatever `c_isr` does that leaves the stack in use alone, the interrupted
program goes on as it was, exactly if the processor pushes an error code for the vectors with an `ISR_ERR` and for no
others. -/
theorem isr_resumes_iff (vector : BitVec 8) (error : Option (BitVec 64)) :
    (∀ callee top c special mem, 8 * 26 ≤ alignedTop top →
      Machine.KeepsStack callee 25 (atCall vector top error c special mem) →
      serviced callee vector top error c special mem = c) ↔ ErrorAsExpected vector error := by
  constructor
  · intro h
    have hkeeps : ∀ n m, Machine.KeepsStack (R := Gpr) (S := SpecialReg) id n m := fun _ _ => ⟨rfl, fun _ _ _ => rfl⟩
    by_contra hne
    unfold ErrorAsExpected at hne
    by_cases hv : vector ∈ isrErrVectors
    · cases error with
      | none =>
        have hrip := congrArg Cpu.rip (h id 0x1000 ⟨fun _ => 0, 1, 0, 0, 0, 0⟩ (fun _ => 0) (fun _ => 0) (by decide)
          (hkeeps ..))
        rw [serviced_missing (by decide) (hkeeps ..) hv] at hrip
        exact absurd hrip (by decide)
      | some e => exact hne (iff_of_true rfl hv)
    · cases error with
      | none => exact hne (iff_of_false (by simp) hv)
      | some e =>
        have hrip := congrArg Cpu.rip (h id 0x1000 ⟨fun _ => 0, e + 1, 0, 0, 0, 0⟩ (fun _ => 0) (fun _ => 0)
          (by decide) (hkeeps ..))
        rw [serviced_unexpected (by decide) (hkeeps ..) hv] at hrip
        exact absurd hrip (by simp)
  · intro herr callee top c special mem hroom hkeeps
    exact serviced_eq hroom hkeeps herr

end Icarus.Interrupts
