/-
The interrupt frame: what the processor and `common_isr` push when an interrupt hits, and the
layout under which the C code reads it.
-/
import Icarus.Base.Bytes

namespace Icarus.Interrupts

open Icarus.Base

/-- The general purpose registers `common_isr` saves. -/
inductive Gpr
  | rax | rcx | rdx | rbx | rbp | rsi | rdi | r8 | r9 | r10 | r11 | r12 | r13 | r14 | r15
  deriving DecidableEq, Repr

/-- What a thread sees of the processor: the general purpose registers and what `iretq` loads. -/
@[ext] structure Cpu where
  gpr : Gpr → BitVec 64
  rip : BitVec 64
  cs : BitVec 16
  rflags : BitVec 64
  rsp : BitVec 64
  ss : BitVec 16

/-! ## Layout (cpu_regs.h, ISR.h) -/

/-- `sizeof(cpu_reg_frame)`: `r15` to `r8`, `rbp`, `rdi`, `rsi`, `rdx`, `rcx`, `rbx`, `rax`. -/
def cpuRegFrameSize : Nat := 120

/-- `sizeof(cpu_push_frame)`: `rip`, `cs`, `rflags`, `rsp`, `ss`. -/
def cpuPushFrameSize : Nat := 40

/-- `gpo_regs` in `struct interrupt_frame`, behind `cr4`, `cr3`, `cr2`. -/
def gpoRegsOffset : Nat := 24

/-- `cpu_regs` in `struct interrupt_frame`, behind `gpo_regs`, `vector`, `error_code`. -/
def cpuRegsOffset : Nat := gpoRegsOffset + cpuRegFrameSize + 16

/-- The vector of the timer stub. -/
def timerVector : BitVec 64 := 32

/-! ## The stack -/

/-- The quadwords above `rsp`, the last one pushed first. -/
abbrev Stack : Type := List (BitVec 64)

/-- `push`. -/
def push (v : BitVec 64) (s : Stack) : Stack := v :: s

/-- The bytes from `rsp` upwards. -/
def stackBytes (s : Stack) : Mem :=
  fun a => (s.getD (a / 8) 0).extractLsb' (8 * (a % 8)) 8

/-- What the processor pushes when it takes an interrupt. -/
def cpuPush (c : Cpu) (s : Stack) : Stack :=
  push c.rip <| push (c.cs.setWidth 64) <| push c.rflags <| push c.rsp <| push (c.ss.setWidth 64) s

/-- `ISR_NOERR`: a zero for the error code the processor does not push, then the vector. -/
def isrNoerr (vector : BitVec 64) (s : Stack) : Stack := push vector <| push 0 s

/-- `common_isr` up to the call of `c_isr`: the general purpose registers in the order of their
encoding, then `cr2`, `cr3` and `cr4` through `rax`. -/
def commonIsr (gpr : Gpr → BitVec 64) (cr2 cr3 cr4 : BitVec 64) (s : Stack) : Stack :=
  let s := push (gpr .rax) s
  let s := push (gpr .rcx) s
  let s := push (gpr .rdx) s
  let s := push (gpr .rbx) s
  let s := push (gpr .rbp) s
  let s := push (gpr .rsi) s
  let s := push (gpr .rdi) s
  let s := push (gpr .r8) s
  let s := push (gpr .r9) s
  let s := push (gpr .r10) s
  let s := push (gpr .r11) s
  let s := push (gpr .r12) s
  let s := push (gpr .r13) s
  let s := push (gpr .r14) s
  let s := push (gpr .r15) s
  let s := push cr2 s
  let s := push cr3 s
  push cr4 s

/-- The frame `c_isr` is handed when the timer interrupts a thread with registers `c`. -/
def timerFrame (c : Cpu) (cr2 cr3 cr4 : BitVec 64) (s : Stack) : Mem :=
  stackBytes (commonIsr c.gpr cr2 cr3 cr4 (isrNoerr timerVector (cpuPush c s)))

/-- A quadword of the frame is the entry of the stack at its index. -/
theorem load64_stackBytes (s : Stack) (i : Nat) : (stackBytes s).load64 (8 * i) = s.getD i 0 := by
  apply BitVec.eq_of_getLsbD_eq
  intro j hj
  rw [Mem.load_getLsbD _ _ 8 j hj]
  unfold stackBytes
  rw [show (8 * i + j / 8) / 8 = i by omega, show (8 * i + j / 8) % 8 = j / 8 by omega,
    BitVec.getLsbD_extractLsb', show 8 * (j / 8) + j % 8 = j by omega]
  simp [Nat.mod_lt j (by decide : 0 < 8)]

end Icarus.Interrupts
