/-
Thread control blocks (thread.h) and the addresses that name them.
-/
import Icarus.Base.Bytes

namespace Icarus.Processes

open Icarus.Base

/-- `THREAD_state_t`. -/
inductive ThreadState
  | new | ready | running | waiting | terminated | denied
  deriving DecidableEq, Repr

/-- `ADDR_SUB_SPACE`. -/
inductive AddrSubSpace
  | code | mapping | stack
  deriving DecidableEq, Repr

/-- The address of a control block: the static `dummy_tcb`, or one the heap handed out. A nullable
`tcb_t *` is an `Option` of it. -/
inductive TcbPtr
  | dummy
  | thread (addr : {a : BitVec 64 // a ≠ 0})
  deriving DecidableEq

/-- `THREAD_CONTROL_BLOCK`, with the fields the modelled code reads or writes. -/
structure Tcb where
  tid : Nat
  /-- `cpu_regs`, as its 160 bytes -/
  registers : Mem
  state : ThreadState
  priority : Nat
  activePriority : Nat
  privileged : Bool
  /-- the physical address of the root table -/
  pageTable : Nat
  /-- `memory.fields` -/
  memory : AddrSubSpace → Nat
  memoryLimit : Nat
  next : Option TcbPtr
  prev : Option TcbPtr

/-- A zeroed control block. -/
def Tcb.zero : Tcb where
  tid := 0
  registers := fun _ => 0
  state := .new
  priority := 0
  activePriority := 0
  privileged := false
  pageTable := 0
  memory := fun _ => 0
  memoryLimit := 0
  next := none
  prev := none

end Icarus.Processes
