/-
System calls (syscall_entry.asm, syscall.c) between the `syscall` and the `sysret` of the processor: what the handler is
called with, and that a program which calls the kernel goes on behind its `syscall` with its stack, its flags and the
registers the calling convention has a function keep, for any handler that follows the convention.
-/
import Icarus.Drivers.Console
import Icarus.Interrupts.Stubs

namespace Icarus.Syscall

open Icarus.Base Icarus.Drivers Icarus.Interrupts

/-! ## The code -/

/-- `offsetof(lcore_ktable_t, kernelStackTop)`. -/
def kernelRsp : Nat := 0x8

/-- `offsetof(lcore_ktable_t, savedUserStack)`. -/
def userRspScratch : Nat := 0x10

/-- `sizeof(lcore_ktable_t)`. -/
def sizeofKtable : Nat := 32

/-- `_syscall_entry` up to where it is on the stack of the kernel. -/
def switchStackCode : List Asm :=
  [.exchange .gsBase .kernelGsBase, .storeRsp (.segment .gsBase userRspScratch), .loadRsp (.segment .gsBase kernelRsp)]

/-- From there to the call of `syscall_handler`. -/
def passArgumentsCode : List Asm :=
  [.pushMem (.segment .gsBase userRspScratch), .push .rcx, .push .r11, .pushImm 0,
    .mov .r9 .r8, .mov .r8 .r10, .mov .rcx .rdx, .mov .rdx .rsi, .mov .rsi .rdi, .mov .rdi .rax]

/-- Behind the call, up to `sysret`. -/
def leaveCode : List Asm := [.addRsp 8, .pop .r11, .pop .rcx, .popRsp, .exchange .gsBase .kernelGsBase]

/-- `_syscall_entry`, up to its `sysret`. -/
def syscallEntryCode : List Asm := switchStackCode ++ passArgumentsCode ++ .call :: leaveCode

/-! ## The processor -/

/-- The registers `syscall_init` writes that `syscall` and `sysret` read. -/
structure Msrs where
  star : BitVec 64
  lstar : BitVec 64
  fmask : BitVec 64

/-- `syscall`, from a program that goes on at `c.rip`. -/
def syscall (msrs : Msrs) (c : Cpu) : Cpu where
  gpr := Function.update (Function.update c.gpr .rcx c.rip) .r11 c.rflags
  rip := msrs.lstar
  cs := (msrs.star >>> 32).setWidth 16 &&& 0xFFFC
  rflags := c.rflags &&& ~~~msrs.fmask
  rsp := c.rsp
  ss := (msrs.star >>> 32).setWidth 16 + 8

/-- The flags `sysret` loads; the others are fixed. -/
def sysretFlags (rflags : BitVec 64) : BitVec 64 := (rflags &&& 0x3C7FD7) ||| 2

/-- `sysret` with a 64 bit operand. -/
def sysret (msrs : Msrs) (c : Cpu) : Cpu where
  gpr := c.gpr
  rip := c.gpr .rcx
  cs := ((msrs.star >>> 48).setWidth 16 + 16) ||| 3
  rflags := sysretFlags (c.gpr .r11)
  rsp := c.rsp
  ss := ((msrs.star >>> 48).setWidth 16 + 8) ||| 3

/-- What `syscall_init` writes into them. -/
def syscallInit : Msrs := ⟨(0x10 <<< 48) ||| (0x08 <<< 32), 0, 0x2⟩

/-- The machine when `_syscall_entry` begins. -/
def entered (msrs : Msrs) (c : Cpu) (special : SpecialReg → BitVec 64) (mem : Mem) : Core :=
  ⟨(syscall msrs c).gpr, special, c.rsp, mem⟩

/-- The machine when it calls `syscall_handler`. -/
def atHandler (msrs : Msrs) (c : Cpu) (special : SpecialReg → BitVec 64) (mem : Mem) : Core :=
  Machine.run id (switchStackCode ++ passArgumentsCode) (entered msrs c special mem)

/-- The machine when it comes to its `sysret`. -/
def leaving (callee : Core → Core) (msrs : Msrs) (c : Cpu) (special : SpecialReg → BitVec 64) (mem : Mem) : Core :=
  Machine.run callee syscallEntryCode (entered msrs c special mem)

/-- The program behind its `syscall`. -/
def returned (callee : Core → Core) (msrs : Msrs) (c : Cpu) (special : SpecialReg → BitVec 64) (mem : Mem) : Cpu :=
  let m := leaving callee msrs c special mem
  sysret msrs { syscall msrs c with gpr := m.reg, rsp := m.rsp }

/-! ## The calling convention -/

/-- The registers a called function keeps. -/
def calleeSaved : List Gpr := [.rbx, .rbp, .r12, .r13, .r14, .r15]

/-- A function that returns to its caller as the convention has it, with `n` quadwords on the stack. -/
structure FollowsConvention (callee : Core → Core) (n : Nat) (m : Core) : Prop where
  keeps : Machine.KeepsStack callee n m
  reg : ∀ r ∈ calleeSaved, (callee m).reg r = m.reg r
  special : (callee m).special = m.special

/-- `u` is `c` behind a system call, but for the registers that carry arguments and the result. -/
structure GoesOn (c u : Cpu) : Prop where
  rip : u.rip = c.rip
  rsp : u.rsp = c.rsp
  rflags : u.rflags = sysretFlags c.rflags
  saved : ∀ r ∈ calleeSaved, u.gpr r = c.gpr r

/-- The kernel's table of the core, with the stack top in it and room below that beside the table. -/
structure KernelTable (special : SpecialReg → BitVec 64) (mem : Mem) (stackTop : BitVec 64) : Prop where
  fits : (special .kernelGsBase).toNat + sizeofKtable ≤ 2 ^ 64
  top : mem.load64 ((special .kernelGsBase).toNat + kernelRsp) = stackTop
  room : 32 ≤ stackTop.toNat
  apart : (special .kernelGsBase).toNat + sizeofKtable ≤ stackTop.toNat - 32 ∨
    stackTop.toNat ≤ (special .kernelGsBase).toNat

/-- The arguments of `syscall_handler` in the order of its parameters. -/
def handlerArguments (m : Core) : List (BitVec 64) :=
  [m.reg .rdi, m.reg .rsi, m.reg .rdx, m.reg .rcx, m.reg .r8, m.reg .r9]

/-- The number and the arguments of a system call where the program puts them. -/
def callArguments (c : Cpu) : List (BitVec 64) :=
  [c.gpr .rax, c.gpr .rdi, c.gpr .rsi, c.gpr .rdx, c.gpr .r10, c.gpr .r8]

/-- `swapgs`. -/
def swapped (special : SpecialReg → BitVec 64) : SpecialReg → BitVec 64 :=
  special ∘ Equiv.swap SpecialReg.gsBase SpecialReg.kernelGsBase

section
variable {msrs : Msrs} {c : Cpu} {special : SpecialReg → BitVec 64} {mem : Mem} {stackTop : BitVec 64}

/-- The memory with the stack pointer of the program in the table. -/
def savedUserRsp (special : SpecialReg → BitVec 64) (mem : Mem) (rsp : BitVec 64) : Mem :=
  mem.store64 ((special .kernelGsBase).toNat + userRspScratch) rsp

theorem addr_segment {t : SpecialReg → BitVec 64} {reg : Gpr → BitVec 64} {disp : Nat}
    (h : (t .gsBase).toNat + disp < 2 ^ 64) :
    Operand.addr reg t (.segment .gsBase disp) = (t .gsBase).toNat + disp := by
  show (t .gsBase + BitVec.ofNat 64 disp).toNat = _
  rw [BitVec.toNat_add, BitVec.toNat_ofNat, Nat.add_mod_mod, Nat.mod_eq_of_lt h]

/-- The first three instructions leave the machine on the kernel's stack. -/
theorem run_switchStack (h : KernelTable special mem stackTop) (callee : Core → Core) :
    Machine.run callee switchStackCode (entered msrs c special mem) =
      ⟨(syscall msrs c).gpr, swapped special, stackTop, savedUserRsp special mem c.rsp⟩ := by
  have hfits := h.fits
  unfold sizeofKtable at hfits
  have hgs : swapped special .gsBase = special .kernelGsBase := rfl
  have haddr : ∀ reg : Gpr → BitVec 64, ∀ disp < 32, Operand.addr reg (swapped special) (.segment .gsBase disp) =
      (special .kernelGsBase).toNat + disp := by
    intro reg disp hdisp
    rw [addr_segment (by rw [hgs]; omega), hgs]
  have hstore : Machine.run callee switchStackCode (entered msrs c special mem) =
      ⟨(syscall msrs c).gpr, swapped special,
        (mem.store64 (Operand.addr (syscall msrs c).gpr (swapped special) (.segment .gsBase userRspScratch)) c.rsp).load64
          (Operand.addr (syscall msrs c).gpr (swapped special) (.segment .gsBase kernelRsp)),
        mem.store64 (Operand.addr (syscall msrs c).gpr (swapped special) (.segment .gsBase userRspScratch)) c.rsp⟩ := rfl
  rw [hstore, haddr _ _ (by decide), haddr _ _ (by decide), Mem.load64_store64_disjoint _ (.inl (by
    unfold kernelRsp userRspScratch
    omega)), h.top]
  rfl

/-- On the kernel's stack, nothing pushed yet. -/
def kernelStackView (msrs : Msrs) (c : Cpu) (special : SpecialReg → BitVec 64) (mem : Mem) (stackTop : BitVec 64) :
    StackView Gpr SpecialReg :=
  ⟨(syscall msrs c).gpr, swapped special, stackTop.toNat - 8 * 4, 4, [], savedUserRsp special mem c.rsp⟩

/-- What lies on the kernel's stack while the handler runs. -/
def savedFrame (c : Cpu) : Stack := [0, c.rflags, c.rip, c.rsp]

/-- What the code up to the call makes of the list view. -/
theorem run_passArguments (msrs : Msrs) (c : Cpu) (h : KernelTable special mem stackTop) : ∃ reg : Gpr → BitVec 64,
    (kernelStackView msrs c special mem stackTop).run passArgumentsCode =
      some ⟨reg, swapped special, stackTop.toNat - 8 * 4, 0, savedFrame c, savedUserRsp special mem c.rsp⟩ ∧
    [reg .rdi, reg .rsi, reg .rdx, reg .rcx, reg .r8, reg .r9] = callArguments c ∧
    ∀ r ∈ calleeSaved, reg r = c.gpr r := by
  have hfits := h.fits
  have hroom := h.room
  have hapart := h.apart
  unfold sizeofKtable at hfits hapart
  have hgs : swapped special .gsBase = special .kernelGsBase := rfl
  have hread : (kernelStackView msrs c special mem stackTop).read (Operand.addr (syscall msrs c).gpr (swapped special)
      (.segment .gsBase userRspScratch)) = some c.rsp := by
    rw [addr_segment (by rw [hgs]; unfold userRspScratch; omega), hgs, StackView.read_eq_some]
    · exact congrArg some (Mem.load64_store64_same ..)
    · simp only [kernelStackView, StackView.hi, List.length_nil, userRspScratch]
      omega
  have hrun : (kernelStackView msrs c special mem stackTop).run passArgumentsCode =
      ((kernelStackView msrs c special mem stackTop).push c.rsp).bind (StackView.run passArgumentsCode.tail) := by
    rw [← StackView.exec_pushMem hread]
    rfl
  rw [hrun]
  refine ⟨_, rfl, rfl, fun r hr => ?_⟩
  fin_cases hr <;> rfl

/-- What the machine shows when it calls the handler. -/
theorem atHandler_shows (msrs : Msrs) (c : Cpu) (h : KernelTable special mem stackTop) : ∃ reg : Gpr → BitVec 64,
    (atHandler msrs c special mem).Shows
      ⟨reg, swapped special, stackTop.toNat - 8 * 4, 0, savedFrame c, savedUserRsp special mem c.rsp⟩ ∧
    [reg .rdi, reg .rsi, reg .rdx, reg .rcx, reg .r8, reg .r9] = callArguments c ∧
    (∀ r ∈ calleeSaved, reg r = c.gpr r) ∧
    ∀ callee, Machine.run callee (switchStackCode ++ passArgumentsCode) (entered msrs c special mem) =
      atHandler msrs c special mem := by
  obtain ⟨reg, hrun, hargs, hsaved⟩ := run_passArguments msrs c h
  have hinit : Machine.Shows (R := Gpr) (S := SpecialReg)
      ⟨(syscall msrs c).gpr, swapped special, stackTop, savedUserRsp special mem c.rsp⟩
      (kernelStackView msrs c special mem stackTop) := .initial h.room
  refine ⟨reg, ?_, hargs, hsaved, fun callee => ?_⟩
  · unfold atHandler
    rw [Machine.run_append, run_switchStack h]
    exact hinit.run id hrun
  · unfold atHandler
    rw [Machine.run_append, Machine.run_append, run_switchStack h, run_switchStack h]
    exact StackView.run_callee hrun ..

theorem atHandler_arguments (h : KernelTable special mem stackTop) :
    handlerArguments (atHandler msrs c special mem) = callArguments c := by
  obtain ⟨reg, hshows, hargs, -, -⟩ := atHandler_shows msrs c h
  unfold handlerArguments
  rw [hshows.reg]
  exact hargs

theorem atHandler_mem (h : KernelTable special mem stackTop) {x : Nat}
    (hx : x < stackTop.toNat - 32 ∨ stackTop.toNat ≤ x) :
    (atHandler msrs c special mem).mem x = savedUserRsp special mem c.rsp x := by
  obtain ⟨reg, hshows, -, -, -⟩ := atHandler_shows msrs c h
  have hroom := h.room
  refine hshows.mem x (hx.imp_right fun hx => le_trans (le_of_eq ?_) hx)
  show stackTop.toNat - 8 * 4 + 8 * (0 + 4) = stackTop.toNat
  omega

/-- The handler is called with the number and the arguments the program put into its registers, on the stack of the
kernel, 32 bytes below its top; besides these bytes and the slot for the stack pointer the memory is as it was. -/
theorem handler_called (msrs : Msrs) (c : Cpu) (h : KernelTable special mem stackTop) :
    let m := atHandler msrs c special mem
    handlerArguments m = callArguments c ∧ m.rsp.toNat = stackTop.toNat - 32 ∧ m.special = swapped special ∧
      (∀ r ∈ calleeSaved, m.reg r = c.gpr r) ∧
      ∀ x, x < stackTop.toNat - 32 ∨ stackTop.toNat ≤ x → m.mem x = savedUserRsp special mem c.rsp x := by
  intro m
  obtain ⟨reg, hshows, -, hsaved, -⟩ := atHandler_shows msrs c h
  refine ⟨atHandler_arguments h, hshows.rsp, hshows.special, fun r hr => ?_, fun x hx => atHandler_mem h hx⟩
  rw [hshows.reg]
  exact hsaved r hr

/-- From the stack the handler was called with back to the `sysret`. -/
theorem run_leave {m : Core} {v : StackView Gpr SpecialReg} (hv : m.Shows v) (hstack : v.stack = savedFrame c)
    (callee : Core → Core) : Machine.run callee leaveCode m =
      ⟨Function.update (Function.update m.reg .r11 c.rflags) .rcx c.rip, swapped m.special, c.rsp, m.mem⟩ := by
  obtain ⟨reg, vspecial, lo, room, stack, vmem⟩ := v
  subst hstack
  have hpops : StackView.run [.addRsp 8, .pop .r11, .pop .rcx] ⟨reg, vspecial, lo, room, savedFrame c, vmem⟩ =
      some ⟨Function.update (Function.update reg .r11 c.rflags) .rcx c.rip, vspecial, lo, room + 3, [c.rsp], vmem⟩ := rfl
  have hshows := hv.run callee hpops
  have htop : (Machine.run callee [.addRsp 8, .pop .r11, .pop .rcx] m).top = c.rsp := by
    unfold Machine.top
    rw [hshows.rsp]
    exact hshows.stack 0 Nat.zero_lt_one
  have hreg : m.reg = reg := hv.reg
  rw [hreg]
  exact Machine.ext hshows.reg rfl htop rfl

/-- A program that calls the kernel goes on behind its `syscall`, with the handler's result and the segment bases as
they were, on the memory the handler left. -/
theorem syscall_returns {callee : Core → Core} (h : KernelTable special mem stackTop)
    (hcallee : FollowsConvention callee 4 (atHandler msrs c special mem)) :
    GoesOn c (returned callee msrs c special mem) ∧
      (returned callee msrs c special mem).gpr .rax = (callee (atHandler msrs c special mem)).reg .rax ∧
      (leaving callee msrs c special mem).special = special ∧
      (leaving callee msrs c special mem).mem = (callee (atHandler msrs c special mem)).mem := by
  obtain ⟨reg, hshows, -, hsaved, hrun⟩ := atHandler_shows msrs c h
  have hcall := hshows.call hcallee.keeps
  have hleave : leaving callee msrs c special mem =
      ⟨Function.update (Function.update (callee (atHandler msrs c special mem)).reg .r11 c.rflags) .rcx c.rip,
        swapped (callee (atHandler msrs c special mem)).special, c.rsp, (callee (atHandler msrs c special mem)).mem⟩ := by
    unfold leaving syscallEntryCode
    rw [Machine.run_append, hrun, Machine.run_cons]
    exact run_leave hcall rfl callee
  unfold returned
  rw [hleave]
  refine ⟨⟨rfl, rfl, rfl, fun r hr => ?_⟩, rfl, ?_, rfl⟩
  · have hkept := hcallee.reg r hr
    rw [hshows.reg] at hkept
    have hne : r ≠ .rcx ∧ r ≠ .r11 := by fin_cases hr <;> decide
    show Function.update (Function.update _ _ _) _ _ r = _
    rw [Function.update_of_ne hne.1, Function.update_of_ne hne.2, hkept]
    exact hsaved r hr
  · rw [hcallee.special, hshows.special]
    funext s
    exact congrArg special (Equiv.swap_apply_self ..)

end

/-! ## A call of the kernel -/

/-- The table at 0x2000 in an otherwise empty memory, with the stack top 0x1000. -/
def ktableMem : Mem := Mem.store64 (fun _ => 0) (0x2000 + kernelRsp) 0x1000

/-- `KERNEL_GS_BASE` names the table. -/
def ktableRegs : SpecialReg → BitVec 64
  | .kernelGsBase => 0x2000
  | _ => 0

/-- A program that writes three bytes from 0x400000 to the console. -/
def writingProgram : Cpu where
  gpr
    | .rsi => 0x400000
    | .rdx => 3
    | .rbx => 7
    | _ => 0
  rip := 0x401002
  cs := 0x23
  rflags := 0x202
  rsp := 0x7FFFF000
  ss := 0x1B

theorem ktable_ok : KernelTable ktableRegs ktableMem 0x1000 :=
  ⟨by decide, Mem.load64_store64_same .., by decide, .inr (by decide)⟩

/-- A handler that does nothing but answer 5. -/
def answerFive (m : Core) : Core := m.set .rax 5

theorem answerFive_follows (n : Nat) (m : Core) : FollowsConvention answerFive n m :=
  ⟨⟨rfl, fun _ _ _ => rfl⟩, fun r hr => Function.update_of_ne (by fin_cases hr <;> decide) .., rfl⟩

theorem handler_called_writing :
    handlerArguments (atHandler syscallInit writingProgram ktableRegs ktableMem) = [0, 0, 0x400000, 3, 0, 0] :=
  (handler_called syscallInit writingProgram ktable_ok).1.trans rfl

theorem syscall_returns_writing :
    GoesOn writingProgram (returned answerFive syscallInit writingProgram ktableRegs ktableMem) ∧
      (returned answerFive syscallInit writingProgram ktableRegs ktableMem).gpr .rax = 5 := by
  obtain ⟨h, hrax, -⟩ :=
    syscall_returns ktable_ok (answerFive_follows 4 (atHandler syscallInit writingProgram ktableRegs ktableMem))
  exact ⟨h, hrax.trans rfl⟩

/-! ## Writing -/

/-- The loop of `write_str_len` on the memory it reads from and the screen lies in. -/
def writeStrLenLoop : (len : Nat) → (str : BitVec 64) → Cursor → Mem → Mem
  | 0, _, _, mem => mem
  | len + 1, str, cur, mem =>
    let (store, cur) := writeC (mem str.toNat) cur
    writeStrLenLoop len (str + 1) cur (store.toList.foldl (fun mem s => Function.update mem s.1 s.2) mem)

/-- `syscall_write`: the output is ignored. -/
def syscallWrite (_outputId buf len offset : BitVec 64) (mem : Mem) : BitVec 64 × Mem :=
  (0, writeStrLenLoop len.toNat buf (strLenCursor offset.toNat) mem)

/-- `syscall_handler`. Only number 0 has a result. -/
def syscallHandler (number first second third fourth _fifth : BitVec 64) (mem : Mem) : Option (BitVec 64 × Mem) :=
  if number = 0 then some (syscallWrite first second third fourth mem) else none

/-- The bytes of a buffer. -/
def bufferBytes (mem : Mem) (a n : Nat) : List (BitVec 8) := (List.range' a n).map mem

/-- The stores of a list, one after the other. -/
def applyStores (stores : List (Nat × BitVec 8)) (mem : Mem) : Mem :=
  stores.foldl (fun mem s => Function.update mem s.1 s.2) mem

theorem writeC_store {ch : BitVec 8} {cur : Cursor} : ∀ store ∈ (writeC ch cur).1, videoMemStart ≤ store.1 := by
  intro store hs
  unfold writeC at hs
  split_ifs at hs
  · cases hs
  · cases hs
  · cases hs
    exact Nat.le_add_right ..

/-- A buffer below the screen is not overwritten while it is read. -/
theorem writeStrLenLoop_eq {len : Nat} {str : BitVec 64} {cur : Cursor} {mem : Mem}
    (h : str.toNat + len ≤ videoMemStart) :
    writeStrLenLoop len str cur mem = applyStores (writeStr (bufferBytes mem str.toNat len) cur).1 mem := by
  induction len generalizing str cur mem with
  | zero => rfl
  | succ len ih =>
    have hvideo : videoMemStart < 2 ^ 64 := by decide
    have hnext : (str + 1).toNat = str.toNat + 1 := by bv_omega
    have hbuffer : bufferBytes mem str.toNat (len + 1) = mem str.toNat :: bufferBytes mem (str.toNat + 1) len := rfl
    rw [hbuffer]
    unfold writeStrLenLoop writeStr
    dsimp only
    rw [ih (by omega), hnext]
    have hkept : bufferBytes ((writeC (mem str.toNat) cur).1.toList.foldl (fun mem s => Function.update mem s.1 s.2) mem)
        (str.toNat + 1) len = bufferBytes mem (str.toNat + 1) len := by
      refine List.map_congr_left fun x hx => ?_
      rw [List.mem_range'_1] at hx
      cases hstore : (writeC (mem str.toNat) cur).1 with
      | none => rfl
      | some store =>
        have hge := writeC_store store hstore
        exact Function.update_of_ne (by omega) ..
    rw [hkept]
    unfold applyStores
    rw [List.foldl_append]

/-- A system call with number 0 stores on the screen the text that lies in the program's buffer, from the offset in
`r10` on, wherever the buffer is below the screen and apart from what the entry writes. -/
theorem write_call_prints (msrs : Msrs) {c : Cpu} {special : SpecialReg → BitVec 64} {mem : Mem} {stackTop : BitVec 64}
    (h : KernelTable special mem stackTop) (hnumber : c.gpr .rax = 0)
    (hbuffer : (c.gpr .rsi).toNat + (c.gpr .rdx).toNat ≤ videoMemStart)
    (hstack : (c.gpr .rsi).toNat + (c.gpr .rdx).toNat ≤ stackTop.toNat - 32 ∨ stackTop.toNat ≤ (c.gpr .rsi).toNat)
    (hslot : (c.gpr .rsi).toNat + (c.gpr .rdx).toNat ≤ (special .kernelGsBase).toNat + userRspScratch ∨
      (special .kernelGsBase).toNat + userRspScratch + 8 ≤ (c.gpr .rsi).toNat) :
    let m := atHandler msrs c special mem
    syscallHandler (m.reg .rdi) (m.reg .rsi) (m.reg .rdx) (m.reg .rcx) (m.reg .r8) (m.reg .r9) m.mem =
      some (0, applyStores
        (writeStrLen (bufferBytes mem (c.gpr .rsi).toNat (c.gpr .rdx).toNat) (c.gpr .r10).toNat) m.mem) := by
  intro m
  have hargs : handlerArguments m = callArguments c := atHandler_arguments h
  have hbytes : bufferBytes m.mem (c.gpr .rsi).toNat (c.gpr .rdx).toNat =
      bufferBytes mem (c.gpr .rsi).toNat (c.gpr .rdx).toNat := by
    refine List.map_congr_left fun x hx => ?_
    rw [List.mem_range'_1] at hx
    rw [atHandler_mem h (by omega)]
    exact Mem.store_of_lt (by omega)
  injection hargs with hrdi hargs
  injection hargs with hrsi hargs
  injection hargs with hrdx hargs
  injection hargs with hrcx _
  rw [hrdi, hrsi, hrdx, hrcx, hnumber]
  unfold syscallHandler syscallWrite
  rw [if_pos rfl, writeStrLenLoop_eq hbuffer, hbytes]
  rfl

theorem write_call_prints_writing :
    let m := atHandler syscallInit writingProgram ktableRegs ktableMem
    syscallHandler (m.reg .rdi) (m.reg .rsi) (m.reg .rdx) (m.reg .rcx) (m.reg .r8) (m.reg .r9) m.mem =
      some (0, applyStores [(videoMemStart, 0), (videoMemStart + 2, 0), (videoMemStart + 4, 0)] m.mem) :=
  (write_call_prints syscallInit (c := writingProgram) ktable_ok rfl (by decide) (.inr (by decide))
    (.inr (by decide))).trans rfl

end Icarus.Syscall
