/-
The priority scheduler (scheduler.c, set_context.asm): the queue of control blocks, the pick, the
context switch and the two ways a thread enters the queue.
-/
import Icarus.Base.Links
import Icarus.Base.Loop
import Icarus.Base.Word
import Icarus.Interrupts.Frame
import Icarus.Processes.Tcb

namespace Icarus.Processes

open Icarus.Base Icarus.Interrupts

/-- `INTERRUPT_SRC`. -/
inductive InterruptSrc
  | tmr | kbd | gen
  deriving DecidableEq, Repr

/-- The globals of scheduler.c, the control blocks they point to, and the part of the processor a
context switch loads. -/
structure Sched where
  tcbs : TcbPtr → Tcb
  topTcb : Option TcbPtr
  lastTcb : Option TcbPtr
  runningTcb : Option TcbPtr
  threadCount : Nat
  cr3 : Nat
  cpu : Cpu

/-- `UINT16_MAX`. -/
def uint16Max : Nat := 2 ^ 16 - 1

/-- `saturating_dec16`. -/
def saturatingDec16 (a : Nat) : Nat := if a ≥ 1 then a - 1 else 0

/-- A pointer that is about to be used as an address. -/
def deref : Option TcbPtr → Except Fault TcbPtr
  | some p => .ok p
  | none => .error (.badAddress 0)

namespace Sched

/-- `next`. -/
def nextOf (s : Sched) (p : TcbPtr) : Option TcbPtr := (s.tcbs p).next

/-- `prev`. -/
def prevOf (s : Sched) (p : TcbPtr) : Option TcbPtr := (s.tcbs p).prev

/-- Writes the control block `p`. -/
def modify (s : Sched) (p : TcbPtr) (f : Tcb → Tcb) : Sched :=
  { s with tcbs := Function.update s.tcbs p (f (s.tcbs p)) }

/-- `p->next = v`. -/
def setNext (s : Sched) (p : TcbPtr) (v : Option TcbPtr) : Sched :=
  s.modify p fun t => { t with next := v }

/-- `p->prev = v`. -/
def setPrev (s : Sched) (p : TcbPtr) (v : Option TcbPtr) : Sched :=
  s.modify p fun t => { t with prev := v }

/-- `p->active_priority = v`. -/
def setActivePriority (s : Sched) (p : TcbPtr) (v : Nat) : Sched :=
  s.modify p fun t => { t with activePriority := v }

/-- `p->state = v`. -/
def setState (s : Sched) (p : TcbPtr) (v : ThreadState) : Sched :=
  s.modify p fun t => { t with state := v }

end Sched

/-! ## The pick -/

/-- The loop of `scheduler_pick_next_thread`: it returns `best_tcb` and `max_priority`. -/
def pickLoop : (fuel : Nat) → (active : Option TcbPtr) → Sched → (best : Option TcbPtr) → (maxPriority : Nat) →
    Except Fault (Sched × Option TcbPtr × Nat)
  | _, none, s, best, maxPriority => .ok (s, best, maxPriority)
  | 0, some _, _, _, _ => .error .outOfFuel
  | fuel + 1, some p, s, best, maxPriority =>
    let t := s.tcbs p
    if t.state ≠ .ready then
      pickLoop fuel t.next s best maxPriority
    else if t.activePriority ≥ maxPriority then
      pickLoop fuel t.next (s.setActivePriority p (saturatingDec16 t.activePriority)) best maxPriority
    else
      pickLoop fuel t.next (s.setActivePriority p (saturatingDec16 t.activePriority)) (some p)
        (saturatingDec16 t.activePriority)

/-- The end of `scheduler_pick_next_thread`: puts the thread last in the queue. -/
def putLast (best : TcbPtr) (s : Sched) : Except Fault (TcbPtr × Sched) := do
  let last ← deref s.lastTcb
  let s := s.setNext last (some best)
  let s := s.setPrev best (some last)
  let s := s.setNext best none
  return (best, { s with lastTcb := some best })

/-- The part of `scheduler_pick_next_thread` that takes the picked thread out of its position. -/
def unlinkBest (best : TcbPtr) (s : Sched) : Except Fault (TcbPtr × Sched) :=
  match s.prevOf best, s.nextOf best with
  | none, next => do
    let top ← deref next
    putLast best ({ s with topTcb := some top }.setPrev top none)
  | some _, none => return (best, s)
  | some prev, some next => putLast best ((s.setNext prev (some next)).setPrev next (some prev))

/-- `scheduler_pick_next_thread`. Without a ready thread the timer falls back on the last one, and
every other source waits for ever. -/
def schedulerPickNextThread (fuel : Nat) (src : InterruptSrc) (s : Sched) : Except Fault (TcbPtr × Sched) := do
  let (s, best, maxPriority) ← pickLoop fuel s.topTcb s s.topTcb uint16Max
  if maxPriority = uint16Max then
    match src with
    | .tmr =>
      let best ← deref s.lastTcb
      return (best, s.setActivePriority best (u16 ((s.tcbs best).priority + 1)))
    | _ => throw .stopped
  else
    let best ← deref best
    let s := s.setActivePriority best (u16 ((s.tcbs best).priority + 1))
    unlinkBest best (s.setState best .running)

/-! ## The switch -/

/-- `_switch_threads` with its `iretq`: the registers loaded from a register block. -/
def switchThreads (regs : Mem) : Cpu where
  gpr
    | .r15 => regs.load64 0
    | .r14 => regs.load64 8
    | .r13 => regs.load64 16
    | .r12 => regs.load64 24
    | .r11 => regs.load64 32
    | .r10 => regs.load64 40
    | .r9 => regs.load64 48
    | .r8 => regs.load64 56
    | .rbp => regs.load64 64
    | .rsi => regs.load64 80
    | .rdx => regs.load64 88
    | .rcx => regs.load64 96
    | .rbx => regs.load64 104
    | .rax => regs.load64 112
    | .rdi => regs.load64 72
  ss := (regs.load64 152).setWidth 16
  rsp := regs.load64 144
  rflags := regs.load64 136
  cs := (regs.load64 128).setWidth 16
  rip := regs.load64 120

/-- The two copies at the start of `context_switch`. -/
def saveFrame (regs frame : Mem) : Mem :=
  let regs := Mem.copy regs 0 frame gpoRegsOffset cpuRegFrameSize
  Mem.copy regs cpuRegFrameSize frame cpuRegsOffset cpuPushFrameSize

/-- The first half of `context_switch`: the interrupted thread is saved and, whatever the interrupt
source, made ready again. The dummy keeps its state. -/
def saveRunning (running : TcbPtr) (frame : Mem) (s : Sched) : Sched :=
  let s := s.modify running fun t => { t with registers := saveFrame t.registers frame }
  if running ≠ .dummy then s.setState running .ready else s

/-- The second half of `context_switch`: the next thread's table and registers are loaded. -/
def loadNext (next : TcbPtr) (s : Sched) : Sched :=
  let s := s.setState next .running
  { s with
    cr3 := (s.tcbs next).pageTable
    runningTcb := some next
    cpu := switchThreads (s.tcbs next).registers }

/-- `context_switch`. -/
def contextSwitch (next : TcbPtr) (frame : Mem) (s : Sched) : Except Fault Sched := do
  let running ← deref s.runningTcb
  return loadNext next (saveRunning running frame s)

/-- `schedule`. -/
def schedule (fuel : Nat) (frame : Mem) (src : InterruptSrc) (s : Sched) : Except Fault Sched := do
  let (next, s) ← schedulerPickNextThread fuel src s
  contextSwitch next frame s

/-! ## Entering the queue -/

/-- `scheduler_init`. -/
def schedulerInit (tcb : TcbPtr) (s : Sched) : Sched :=
  let s := s.modify .dummy fun t => { t with state := .denied, priority := 0 }
  let s := { s with runningTcb := some .dummy, lastTcb := some .dummy }
  let s := s.setNext .dummy none
  let s := s.setPrev .dummy (some tcb)
  let s := { s with topTcb := some tcb }
  let s := s.setNext tcb (some .dummy)
  let s := s.setPrev tcb none
  let s := s.setState tcb .ready
  { s with threadCount := add64 s.threadCount 1 }

/-- `scheduler_add_thread`. -/
def schedulerAddThread (tcb : TcbPtr) (s : Sched) : Except Fault Sched := do
  let last ← deref s.lastTcb
  let s := s.setNext last (some tcb)
  let s := s.setPrev tcb (some last)
  let s := s.setNext tcb none
  return { s with lastTcb := some tcb, threadCount := add64 s.threadCount 1 }

end Icarus.Processes
