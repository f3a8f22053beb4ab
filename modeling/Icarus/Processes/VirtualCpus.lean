/-
Every thread has a processor of its own: in any run of the system, with the threads computing what they will, the timer
interrupting them anywhere and new ones entering the queue, the registers a thread has or will go on with are what its
own computations and its own preemptions make of those it began with. Each preemption rotates six of them, which for
code that treats these alike can be told from the number of preemptions.
-/
import Icarus.Base.Interleaving
import Icarus.Processes.SwitchCode

namespace Icarus.Processes

open Icarus.Base Icarus.Interrupts

/-! ## Runs of the system -/

/-- What can happen to the processor of a thread. -/
inductive CpuEvent
  | ran (f : Cpu → Cpu)
  | preempted
  | created (c : Cpu)

/-- What becomes of its registers. -/
def CpuEvent.act : CpuEvent → Cpu → Cpu
  | .ran f, c => f c
  | .preempted, c => rotated c
  | .created c, _ => c

/-- The running thread computes something, the timer interrupts it, or a thread that does not run enters the queue with
its control block just written. -/
inductive SystemStep : Sched → TcbPtr × CpuEvent → Sched → Prop
  | ran {s : Sched} {r : TcbPtr} (f : Cpu → Cpu) : s.runningTcb = some r →
      SystemStep s (r, .ran f) { s with cpu := f s.cpu }
  | preempted {s s' : Sched} {r : TcbPtr} (fuel : Nat) (cr2 cr4 : BitVec 64) (stack : Stack) :
      s.runningTcb = some r → timerTick fuel s.cpu cr2 cr4 stack s = .ok s' → SystemStep s (r, .preempted) s'
  | created {s s' : Sched} {p : TcbPtr} (tcb : Tcb) : s.runningTcb ≠ some p →
      schedulerAddThread p (s.modify p fun _ => tcb) = .ok s' →
      SystemStep s (p, .created (switchThreads tcb.registers)) s'

/-- The registers a thread has, or will go on with. -/
def Sched.cpuOf (s : Sched) (p : TcbPtr) : Cpu :=
  if s.runningTcb = some p then s.cpu else switchThreads (s.tcbs p).registers

/-- The registers a thread ends with when these things happen to it. -/
def afterEvents (es : List (TcbPtr × CpuEvent)) (c : Cpu) : Cpu := es.foldl (fun c e => e.2.act c) c

section
variable {s s' : Sched} {p r : TcbPtr} {es : List (TcbPtr × CpuEvent)}

theorem Sched.cpuOf_running (h : s.runningTcb = some p) : s.cpuOf p = s.cpu := if_pos h

theorem Sched.cpuOf_waiting (h : s.runningTcb ≠ some p) : s.cpuOf p = switchThreads (s.tcbs p).registers := if_neg h

/-- After a tick the thread that is dispatched has what its block holds, and so has every other. -/
theorem cpuOf_tick {fuel : Nat} {frame : Mem} {src : InterruptSrc} (h : schedule fuel frame src s = .ok s')
    (p : TcbPtr) : s'.cpuOf p = switchThreads (s'.tcbs p).registers := by
  obtain ⟨-, y, -, hy, hload, -⟩ := schedule_registers h
  by_cases hp : s'.runningTcb = some p
  · rw [hy, Option.some.injEq] at hp
    rw [Sched.cpuOf_running (hp ▸ hy), hload, hp]
  · exact Sched.cpuOf_waiting hp

theorem add_cpu {tcb : Tcb} (h : schedulerAddThread p (s.modify p fun _ => tcb) = .ok s') :
    s'.cpu = s.cpu ∧ (s'.tcbs p).registers = tcb.registers := by
  rw [schedulerAddThread_eq] at h
  cases hput : putLast p (s.modify p fun _ => tcb) with
  | error e => rw [hput] at h; cases h
  | ok z =>
    rw [hput] at h
    cases h
    refine ⟨?_, ?_⟩
    · obtain ⟨l, -, he⟩ := bind_eq_ok.1 hput
      cases he
      rfl
    · have hsame := (putLast_registers hput (.refl _)).registers p
      exact hsame.trans (by simp [Sched.modify])

/-- A step is the business of one thread. -/
theorem systemStep_acts : ActsOnOwner SystemStep Sched.cpuOf Prod.fst fun e c => e.2.act c := by
  intro s e s' h
  funext p
  cases h with
  | @ran r f hr =>
    by_cases hp : p = r
    · subst hp
      rw [Function.update_self, Sched.cpuOf_running hr]
      exact Sched.cpuOf_running (s := { s with cpu := f s.cpu }) hr
    · have hne : s.runningTcb ≠ some p := by
        rw [hr]
        exact fun h => hp (Option.some.inj h).symm
      rw [Function.update_of_ne hp, Sched.cpuOf_waiting hne]
      exact Sched.cpuOf_waiting (s := { s with cpu := f s.cpu }) hne
  | @preempted s' r fuel cr2 cr4 stack hr htick =>
    obtain ⟨r', -, hr', -, -, hregs⟩ := schedule_registers htick
    rw [hr, Option.some.injEq] at hr'
    subst hr'
    rw [cpuOf_tick htick, hregs]
    by_cases hp : p = r
    · subst hp
      rw [if_pos rfl, Function.update_self, Sched.cpuOf_running hr]
      exact switchThreads_saveFrame ..
    · rw [if_neg hp, Function.update_of_ne hp, Sched.cpuOf_waiting]
      rw [hr]
      exact fun h => hp (Option.some.inj h).symm
  | @created s' q tcb hq hadd =>
    obtain ⟨hregs, hrun⟩ := add_registers hadd
    obtain ⟨hcpu, hblock⟩ := add_cpu hadd
    by_cases hp : p = q
    · subst hp
      rw [Function.update_self, Sched.cpuOf_waiting (hrun ▸ hq), hblock]
      rfl
    · rw [Function.update_of_ne hp]
      unfold Sched.cpuOf
      rw [hrun, hcpu, hregs p hp]

/-- In every run, whatever the other threads compute and whenever they are interrupted or created: the registers of a
thread are what its own computations and preemptions make of those it began with. -/
theorem threads_have_own_cpu (h : Trace SystemStep s es s') (p : TcbPtr) :
    s'.cpuOf p = afterEvents (ownLabels Prod.fst p es) (s.cpuOf p) :=
  h.component systemStep_acts p

end

/-- One preemption of the only thread. -/
theorem alone_preempted : ∃ s s', s.runningTcb = some firstTcb ∧ Trace SystemStep s [(firstTcb, .preempted)] s' := by
  obtain ⟨s, -, hrun, hticks⟩ := alone_ticks
  obtain ⟨s', hs'⟩ := hticks (timerFrame s.cpu 0 (BitVec.ofNat 64 s.cr3) 0 [])
  exact ⟨s, s', hrun, .cons (.preempted 2 0 0 [] hrun hs') (.nil s')⟩

theorem threads_have_own_cpu_alone : ∃ s s', Trace SystemStep s [(firstTcb, .preempted)] s' ∧
    s'.cpuOf firstTcb = rotated (s.cpuOf firstTcb) := by
  obtain ⟨s, s', -, h⟩ := alone_preempted
  exact ⟨s, s', h, threads_have_own_cpu h firstTcb⟩

/-! ## Preemptions that do not show -/

/-- What was computed, if anything was. -/
def CpuEvent.computation : CpuEvent → Option (Cpu → Cpu)
  | .ran f => some f
  | _ => none

/-- A preemption. -/
def CpuEvent.isPreempted : CpuEvent → Bool
  | .preempted => true
  | _ => false

/-- A creation. -/
def CpuEvent.isCreated : CpuEvent → Bool
  | .created _ => true
  | _ => false

/-- What a thread computes in these events. -/
def computations (es : List (TcbPtr × CpuEvent)) : List (Cpu → Cpu) := es.filterMap (·.2.computation)

/-- How often it is preempted. -/
def preemptions (es : List (TcbPtr × CpuEvent)) : Nat := es.countP (·.2.isPreempted)

/-- What it would end with if it were never preempted. -/
def undisturbed (es : List (TcbPtr × CpuEvent)) (c : Cpu) : Cpu := (computations es).foldl (fun c f => f c) c

/-- Three preemptions cancel out. -/
theorem rotated_three (c : Cpu) : rotated (rotated (rotated c)) = c := by
  refine Cpu.ext (funext fun r => ?_) rfl rfl rfl rfl rfl
  cases r <;> rfl

section
variable {s s' : Sched} {p : TcbPtr} {es : List (TcbPtr × CpuEvent)}

theorem afterEvents_eq (hcreated : ∀ e ∈ es, e.2.isCreated = false)
    (hcomm : ∀ f ∈ computations es, ∀ c, f (rotated c) = rotated (f c)) (c : Cpu) :
    afterEvents es c = rotated^[preemptions es] (undisturbed es c) := by
  induction es generalizing c with
  | nil => rfl
  | cons e es ih =>
    obtain ⟨q, e⟩ := e
    have hcreated' := fun e' he' => hcreated e' (List.mem_cons_of_mem _ he')
    cases e with
    | ran f =>
      have hcs : computations ((q, .ran f) :: es) = f :: computations es := rfl
      rw [hcs] at hcomm
      exact ih hcreated' (fun g hg => hcomm g (List.mem_cons_of_mem _ hg)) (f c)
    | preempted =>
      have hn : preemptions ((q, .preempted) :: es) = preemptions es + 1 := List.countP_cons_of_pos rfl
      rw [hn, Function.iterate_succ_apply]
      refine (ih hcreated' hcomm (rotated c)).trans (congrArg _ ?_)
      exact foldl_disturbed hcomm 1 c
    | created c' => exact absurd (hcreated _ List.mem_cons_self) (by simp [CpuEvent.isCreated])

/-- A thread whose code treats the registers that are rotated alike, in any run: it ends as if it had never been
preempted exactly if it was preempted a multiple of three times, or the registers hold the same anyway. -/
theorem preemptions_invisible_iff (h : Trace SystemStep s es s')
    (hcreated : ∀ e ∈ ownLabels Prod.fst p es, e.2.isCreated = false)
    (hcomm : ∀ f ∈ computations (ownLabels Prod.fst p es), ∀ c, f (rotated c) = rotated (f c)) :
    s'.cpuOf p = undisturbed (ownLabels Prod.fst p es) (s.cpuOf p) ↔
      3 ∣ preemptions (ownLabels Prod.fst p es) ∨
        rotated (undisturbed (ownLabels Prod.fst p es) (s.cpuOf p)) =
          undisturbed (ownLabels Prod.fst p es) (s.cpuOf p) := by
  have hown : s'.cpuOf p = afterEvents (ownLabels Prod.fst p es) (s.cpuOf p) := h.component systemStep_acts p
  rw [hown, afterEvents_eq hcreated hcomm]
  exact iterate_eq_self_iff_of_order_three rotated_three ..

end

theorem preemptions_invisible_iff_alone : ∃ s s', Trace SystemStep s [(firstTcb, .preempted)] s' ∧
    (s'.cpuOf firstTcb = s.cpuOf firstTcb ↔ 3 ∣ 1 ∨ rotated (s.cpuOf firstTcb) = s.cpuOf firstTcb) := by
  obtain ⟨s, s', -, h⟩ := alone_preempted
  exact ⟨s, s', h, preemptions_invisible_iff (p := firstTcb) h (by simp [ownLabels, CpuEvent.isCreated])
    (by simp [ownLabels, computations, CpuEvent.computation])⟩

end Icarus.Processes
