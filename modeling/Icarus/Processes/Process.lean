/-
Processes (Process.c).
-/
import Icarus.Processes.Thread

namespace Icarus.Processes

open Icarus.Base Icarus.Memory

/-! ## Data -/

/-- `thread_descriptor_t`; `next_tcb` is `NULL`. -/
structure ThreadDescriptor where
  tcb : Option TcbPtr
  nextTcb : Option TcbPtr

/-- `PROCESS_CONTROL_BLOCK`. -/
structure Pcb where
  parentPid : Nat
  pid : Nat
  initPriority : Nat
  processThreads : ThreadDescriptor

/-- The arguments of `create_process`; `code` are the bytes from `code_location` on. -/
structure ProcessArgs where
  parentPid : Nat
  isPrivileged : Bool
  priority : BitVec 16
  code : Mem
  codeSize : Nat
  allocationInfo : AllocationInfo

/-- `sizeof(thread_memory_supply_block_t)`. -/
def supplyBlockSize : Nat := 24

/-- `sizeof(pcb_t)`. -/
def pcbSize : Nat := 32

/-- `sizeof(thread_descriptor_t)`. -/
def threadDescriptorSize : Nat := 16

/-- The permissions `init_process` sets. -/
def defaultPermissions : PermissionInfo where
  codePerms := writeable
  mappingPerms := writeable ||| cacheDisabled
  stackPerms := writeable

/-! ## Construction -/

/-- `idealloc_frames` of a part of the supply block that is there. -/
def ideallocPart (part : Option Nat) (k : Kernel) : Kernel :=
  match part with
  | none => k
  | some info => { k with mmap := (ideallocFrames k.mem info k.mmap).2 }

/-- The address of a control block on the heap; the dummy lies on none. -/
def TcbPtr.heapAddr : TcbPtr → Nat
  | .dummy => 0
  | .thread addr => addr.1.toNat

/-- `init_process`. When a part of the memory is missing, the parts that are there and the supply block are
released; the control blocks, the descriptor and the frames of the page tables are not. -/
def initProcess (args : ProcessArgs) (k : Kernel) : Except Fault (Option Pcb × Kernel) := do
  let pid := k.pidGen
  let k := { k with pidGen := add64 k.pidGen 1 }
  let (sp, k) ← imalloc supplyBlockSize k
  if sp = 0 then return (none, k)
  let (thread, supply, k) ← spawnAllocThread args.isPrivileged args.priority args.allocationInfo defaultPermissions k
  match thread with
  | none =>
    let k ← ifree sp supplyBlockSize k
    return (none, k)
  | some tcb =>
    let (pcbAddr, k) ← imalloc pcbSize k
    if pcbAddr = 0 then
      let k ← ifree sp supplyBlockSize k
      let k ← ifree tcb.heapAddr tcbSize k
      return (none, k)
    let (descriptorAddr, k) ← imalloc threadDescriptorSize k
    if descriptorAddr = 0 then
      let k ← ifree sp supplyBlockSize k
      let k ← ifree tcb.heapAddr tcbSize k
      let k ← ifree pcbAddr pcbSize k
      return (none, k)
    let pcb : Pcb := {
      parentPid := args.parentPid
      pid
      initPriority := args.priority.toNat
      processThreads := ⟨thread, none⟩ }
    match supply with
    | ⟨some codeMemory, some _, some _⟩ =>
      return (some pcb, { k with mem := k.mem.copy codeMemory args.code 0 args.codeSize })
    | ⟨codeMemory, mappingMemory, stackMemory⟩ =>
      let k := ideallocPart stackMemory (ideallocPart mappingMemory (ideallocPart codeMemory k))
      let k ← ifree sp supplyBlockSize k
      return (none, k)

/-- `create_process`. -/
def createProcess (args : ProcessArgs) (k : Kernel) : Except Fault (Option Pcb × Kernel) := do
  let (pcb, k) ← initProcess args k
  match pcb with
  | none => return (none, k)
  | some pcb =>
    match pcb.processThreads.tcb with
    | none => return (none, k)
    | some tcb =>
      let sched ← schedulerAddThread tcb (k.sched.setState tcb .ready)
      return (some pcb, { k with sched })

/-- `create_initial_process`. -/
def createInitialProcess (args : ProcessArgs) (k : Kernel) : Except Fault (Option Pcb × Kernel) := do
  let (pcb, k) ← initProcess args k
  match pcb with
  | none => return (none, k)
  | some pcb =>
    match pcb.processThreads.tcb with
    | none => return (none, k)
    | some tcb => return (some pcb, { k with sched := (schedulerInit tcb k.sched).setState tcb .ready })

end Icarus.Processes
