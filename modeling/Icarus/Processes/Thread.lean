/-
Threads and their memory (thread.c).
-/
import Icarus.Processes.Kernel

namespace Icarus.Processes

open Icarus.Base Icarus.Memory

/-! ## Addresses and sizes -/

/-- `THREAD_CODE_VIRT_ADDR`. -/
def threadCodeVirtAddr : Nat := 0x48000000000

/-- `THREAD_MAPPINGS_VIRT_ADDR`. -/
def threadMappingsVirtAddr : Nat := 0x90000000000

/-- `THREAD_STACK_VIRT_ADDR`. -/
def threadStackVirtAddr : Nat := 0x7C8000000000

/-- `SUB_SPACE_TO_ADDR`. -/
def subSpaceToAddr : AddrSubSpace → Nat
  | .code => threadCodeVirtAddr
  | .mapping => threadMappingsVirtAddr
  | .stack => threadStackVirtAddr

/-- `sizeof(tcb_t)`. -/
def tcbSize : Nat := 272

/-- `WRITEABLE`. -/
def writeable : Nat := 0x1 <<< writeableShift

/-- `CACHE_DISABLED`. -/
def cacheDisabled : Nat := 0x1 <<< cacheDisabledShift

/-- `thread_memory_allocation_info_t`. -/
structure AllocationInfo where
  codePages : Nat
  codePageSize : Nat
  mappingPages : Nat
  mappingPageSize : Nat
  stackPages : Nat
  stackPageSize : Nat

/-- `thread_memory_permission_info_t`. -/
structure PermissionInfo where
  codePerms : Nat
  mappingPerms : Nat
  stackPerms : Nat

/-- `thread_memory_supply_block_t`; nothing stands for `FRAME_ALLOC_FAILED`. -/
structure SupplyBlock where
  codeMemory : Option Nat
  mappingMemory : Option Nat
  stackMemory : Option Nat

/-! ## A new thread -/

/-- The control block at an address the heap returned; `NULL` is about to be used as one. -/
def tcbAtAddr (addr : Nat) : Except Fault TcbPtr :=
  if h : BitVec.ofNat 64 addr ≠ 0 then .ok (.thread ⟨BitVec.ofNat 64 addr, h⟩) else .error (.badAddress 0)

/-- The registers `create_thread` sets in a zeroed block. -/
def startRegisters (isPrivileged : Bool) : Mem :=
  let regs : Mem := fun _ => 0
  let regs := regs.store64 136 0x202
  let regs := regs.store64 120 (BitVec.ofNat 64 threadCodeVirtAddr)
  let regs := regs.store64 144 (BitVec.ofNat 64 threadStackVirtAddr)
  let regs := regs.store64 128 (if isPrivileged then 0x08 else 0x23)
  regs.store64 152 (if isPrivileged then 0x10 else 0x1b)

/-- `create_thread`. The root table of the thread is a copy of the one CR3 holds, all of its 512 entries. -/
def createThread (isPrivileged : Bool) (priority : BitVec 16) (k : Kernel) :
    Except Fault (Option TcbPtr × Kernel) := do
  if priority.toNat = uint16Max then return (none, k)
  let (addr, k) ← imalloc tcbSize k
  let tcb ← tcbAtAddr addr
  match ← iallocFrames 1 0 k.mem k.mmap with
  | (none, _, _) => throw (.badAddress frameAllocFailed)
  | (some procPml4, mem, mmap) =>
    let sched := k.sched.modify tcb fun _ => { Tcb.zero with
      tid := k.tidGen
      registers := startRegisters isPrivileged
      pageTable := procPml4
      privileged := isPrivileged
      priority := priority.toNat
      activePriority := priority.toNat }
    return (some tcb, { k with
      mem := mem.copy procPml4 mem k.sched.cr3 defaultPageSize
      mmap
      sched
      tidGen := add64 k.tidGen 1 })

/-! ## Memory for a thread -/

/-- The sizes that `thread_supply_mem_region` counts up after a page. -/
def Tcb.grow (t : Tcb) (subSpace : AddrSubSpace) (size : Nat) : Tcb :=
  { t with
    memory := Function.update t.memory subSpace (add64 (t.memory subSpace) size)
    memoryLimit := add64 t.memoryLimit size }

/-- `permissions | (!thread->privileged << USER_ACCESS_SHIFT)`. -/
def threadPerms (t : Tcb) (permissions : Nat) : Nat :=
  permissions ||| (if t.privileged then 0 else 1) <<< userAccessShift

/-- The loop of `thread_supply_mem_region` from page `i` on. -/
def supplyLoop (thread : Option TcbPtr) (subSpace : AddrSubSpace) (info permissions : Nat) :
    (fuel i : Nat) → Kernel → Except Fault (Int × Kernel)
  | 0, _, _ => .error .outOfFuel
  | fuel + 1, i, k =>
    if i < pageCount k.mem info then do
      let p ← deref thread
      let t := k.sched.tcbs p
      let (r, mem, mmap) := pageIn (iallocKframe · 1) t.pageTable (add64 (subSpaceToAddr subSpace) (t.memory subSpace))
        (pageAddr k.mem info i) (pageSize k.mem info) (threadPerms t permissions) k.mem k.mmap
      let k := { k with mem, mmap }
      if r ≠ 0 then return (-1, k)
      supplyLoop thread subSpace info permissions fuel (i + 1)
        { k with sched := k.sched.modify p (·.grow subSpace (pageSize k.mem info)) }
    else return (0, k)

/-- `thread_supply_mem_region`. -/
def threadSupplyMemRegion (thread : Option TcbPtr) (subSpace : AddrSubSpace) (info permissions : Nat) (k : Kernel) :
    Except Fault (Int × Kernel) :=
  supplyLoop thread subSpace info permissions (pageCount k.mem info + 1) 0 k

/-- `thread_supply_new_mem_region`; nothing stands for `FRAME_ALLOC_FAILED`. The argument for `page_type`
of `ialloc_frames` is a size. -/
def threadSupplyNewMemRegion (thread : Option TcbPtr) (subSpace : AddrSubSpace) (pages pSize permissions : Nat)
    (k : Kernel) : Except Fault (Option Nat × Kernel) := do
  let size := pageTypeToSize (u32 pSize)
  match ← iallocFrames pages size k.mem k.mmap with
  | (none, mem, mmap) => return (none, { k with mem, mmap })
  | (some info, mem, mmap) =>
    let (r, k) ← threadSupplyMemRegion thread subSpace info permissions { k with mem, mmap }
    if r ≠ 0 then return (none, k) else return (some info, k)

/-- `thread_supply_new_mem`. The calls pass the permissions where the type of the pages is meant, and for the
permissions the number or the size of the pages. -/
def threadSupplyNewMem (thread : Option TcbPtr) (info : AllocationInfo) (perms : PermissionInfo) (k : Kernel) :
    Except Fault (Int × SupplyBlock × Kernel) := do
  let (codeMemory, k) ← threadSupplyNewMemRegion thread .code info.codePages perms.codePerms info.codePages k
  let (mappingMemory, k) ←
    threadSupplyNewMemRegion thread .mapping info.mappingPages perms.mappingPerms info.mappingPageSize k
  let (stackMemory, k) ←
    threadSupplyNewMemRegion thread .stack info.stackPages perms.stackPerms info.stackPageSize k
  let r := if codeMemory = none ∨ mappingMemory = none ∨ stackMemory = none then -1 else 0
  return (r, ⟨codeMemory, mappingMemory, stackMemory⟩, k)

/-- `spawn_alloc_thread`; what `thread_supply_new_mem` returns is not looked at. -/
def spawnAllocThread (isPrivileged : Bool) (priority : BitVec 16) (info : AllocationInfo) (perms : PermissionInfo)
    (k : Kernel) : Except Fault (Option TcbPtr × SupplyBlock × Kernel) := do
  let (tcb, k) ← createThread isPrivileged priority k
  let (_, supply, k) ← threadSupplyNewMem tcb info perms k
  return (tcb, supply, k)

end Icarus.Processes
