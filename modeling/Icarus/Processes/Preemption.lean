/-
Preemption and resumption: the registers of a thread from the moment the timer interrupts it to
the moment the switch loads them again, through the stub's pushes, the two copies into the control
block, any number of other ticks, and the loads of `_switch_threads`.
-/
import Icarus.Processes.RunQueue

namespace Icarus.Processes

open Icarus.Base Icarus.Interrupts

/-- The timer interrupts the running thread, whose registers are `c`. -/
def timerTick (fuel : Nat) (c : Cpu) (cr2 cr4 : BitVec 64) (stack : Stack) (s : Sched) : Except Fault Sched :=
  schedule fuel (timerFrame c cr2 (BitVec.ofNat 64 s.cr3) cr4 stack) .tmr s

/-- The registers with which `t` goes on, from a state in which it was interrupted: other threads
enter the queue, are interrupted and dispatched, until a tick dispatches `t`. -/
inductive ResumesWith (t : TcbPtr) : Sched → Cpu → Prop
  | now {s : Sched} : s.runningTcb = some t → ResumesWith t s s.cpu
  | tick {s s' : Sched} {out : Cpu} (fuel : Nat) (c : Cpu) (cr2 cr4 : BitVec 64) (stack : Stack) :
      s.runningTcb ≠ some t → timerTick fuel c cr2 cr4 stack s = .ok s' → ResumesWith t s' out → ResumesWith t s out
  | add {s s' : Sched} {out : Cpu} (p : TcbPtr) (tcb : Tcb) : s.runningTcb ≠ some t → p ≠ t →
      schedulerAddThread p (s.modify p fun _ => tcb) = .ok s' → ResumesWith t s' out → ResumesWith t s out

/-! ## Save and load -/

/-- What the layouts of the stub, of `cpu_reg_frame` and of `_switch_threads` make of the registers
together: `common_isr` pushes `rdi`, `rsi`, `rbp` and `rbx`, `rdx`, `rcx` where the other two expect
`rbp`, `rdi`, `rsi` and `rdx`, `rcx`, `rbx`. -/
def rotated (c : Cpu) : Cpu :=
  { c with gpr := fun
    | .rbp => c.gpr .rdi
    | .rdi => c.gpr .rsi
    | .rsi => c.gpr .rbp
    | .rdx => c.gpr .rbx
    | .rcx => c.gpr .rdx
    | .rbx => c.gpr .rcx
    | r => c.gpr r }

theorem load_saveFrame_gpo (regs frame : Mem) {i : Nat} (hi : i < 15) :
    (saveFrame regs frame).load64 (8 * i) = frame.load64 (8 * (i + 3)) := by
  unfold saveFrame cpuRegFrameSize cpuRegsOffset gpoRegsOffset
  rw [Mem.load64, Mem.load_copy_disjoint (by omega)]
  have h := @Mem.load_copy_inside regs frame 0 24 120 (8 * i) 8 (by omega)
  rw [Nat.zero_add] at h
  rw [h, show 8 * (i + 3) = 24 + 8 * i by omega]

theorem load_saveFrame_push (regs frame : Mem) {i : Nat} (hi : i < 5) :
    (saveFrame regs frame).load64 (8 * (i + 15)) = frame.load64 (8 * (i + 20)) := by
  unfold saveFrame cpuRegFrameSize cpuRegsOffset cpuPushFrameSize gpoRegsOffset
  rw [show 8 * (i + 15) = 120 + 8 * i by omega, Mem.load64, Mem.load_copy_inside (by omega)]
  rw [show 8 * (i + 20) = 160 + 8 * i by omega]
  rfl

/-- What the switch loads from a control block into which a frame of the timer was copied. -/
theorem switchThreads_saveFrame (regs : Mem) (c : Cpu) (cr2 cr3 cr4 : BitVec 64) (stack : Stack) :
    switchThreads (saveFrame regs (timerFrame c cr2 cr3 cr4 stack)) = rotated c := by
  have hg : ∀ i < 15, (saveFrame regs (timerFrame c cr2 cr3 cr4 stack)).load64 (8 * i) =
      (commonIsr c.gpr cr2 cr3 cr4 (isrNoerr timerVector (cpuPush c stack))).getD (i + 3) 0 := by
    intro i hi
    rw [load_saveFrame_gpo _ _ hi]
    exact load64_stackBytes ..
  have hp : ∀ i < 5, (saveFrame regs (timerFrame c cr2 cr3 cr4 stack)).load64 (8 * (i + 15)) =
      (commonIsr c.gpr cr2 cr3 cr4 (isrNoerr timerVector (cpuPush c stack))).getD (i + 20) 0 := by
    intro i hi
    rw [load_saveFrame_push _ _ hi]
    exact load64_stackBytes ..
  refine Cpu.ext (funext fun r => ?_) (hp 0 (by decide)) ?_ (hp 2 (by decide)) (hp 3 (by decide)) ?_
  · cases r with
    | rax => exact hg 14 (by decide)
    | rcx => exact hg 12 (by decide)
    | rdx => exact hg 11 (by decide)
    | rbx => exact hg 13 (by decide)
    | rbp => exact hg 8 (by decide)
    | rsi => exact hg 10 (by decide)
    | rdi => exact hg 9 (by decide)
    | r8 => exact hg 7 (by decide)
    | r9 => exact hg 6 (by decide)
    | r10 => exact hg 5 (by decide)
    | r11 => exact hg 4 (by decide)
    | r12 => exact hg 3 (by decide)
    | r13 => exact hg 2 (by decide)
    | r14 => exact hg 1 (by decide)
    | r15 => exact hg 0 (by decide)
  · have h : _ = c.cs.setWidth 64 := hp 1 (by decide)
    show BitVec.setWidth 16 (Mem.load64 _ 128) = c.cs
    rw [h, BitVec.setWidth_setWidth_of_le _ (by decide), BitVec.setWidth_eq]
  · have h : _ = c.ss.setWidth 64 := hp 4 (by decide)
    show BitVec.setWidth 16 (Mem.load64 _ 152) = c.ss
    rw [h, BitVec.setWidth_setWidth_of_le _ (by decide), BitVec.setWidth_eq]

theorem rotated_eq_iff (c : Cpu) : rotated c = c ↔
    (c.gpr .rbp = c.gpr .rdi ∧ c.gpr .rdi = c.gpr .rsi) ∧ c.gpr .rbx = c.gpr .rcx ∧ c.gpr .rcx = c.gpr .rdx := by
  constructor
  · intro h
    have hg : ∀ r, (rotated c).gpr r = c.gpr r := fun r => by rw [h]
    exact ⟨⟨(hg .rbp).symm, (hg .rdi).symm⟩, (hg .rbx).symm, (hg .rcx).symm⟩
  · rintro ⟨⟨h1, h2⟩, h3, h4⟩
    refine Cpu.ext (funext fun r => ?_) rfl rfl rfl rfl rfl
    cases r <;> simp only [rotated, h1, h2, h3, h4]

/-! ## The registers of the other threads -/

/-- A pick leaves the registers of every thread and the running one alone. -/
structure SameRegisters (s s' : Sched) : Prop where
  registers : ∀ p, (s'.tcbs p).registers = (s.tcbs p).registers
  running : s'.runningTcb = s.runningTcb

theorem SameRegisters.refl (s : Sched) : SameRegisters s s := ⟨fun _ => rfl, rfl⟩

theorem SameRegisters.modify {s s' : Sched} {f : Tcb → Tcb} (h : SameRegisters s s') (p : TcbPtr)
    (hf : ∀ t, (f t).registers = t.registers) : SameRegisters s (s'.modify p f) :=
  ⟨fun x => (congrFun (s'.field_modify_same p hf) x).trans (h.registers x), h.running⟩

theorem SameRegisters.setNext {s s' : Sched} (h : SameRegisters s s') (p : TcbPtr) (v : Option TcbPtr) :
    SameRegisters s (s'.setNext p v) :=
  h.modify p fun _ => rfl

theorem SameRegisters.setPrev {s s' : Sched} (h : SameRegisters s s') (p : TcbPtr) (v : Option TcbPtr) :
    SameRegisters s (s'.setPrev p v) :=
  h.modify p fun _ => rfl

theorem SameRegisters.setActivePriority {s s' : Sched} (h : SameRegisters s s') (p : TcbPtr) (v : Nat) :
    SameRegisters s (s'.setActivePriority p v) :=
  h.modify p fun _ => rfl

theorem SameRegisters.setState {s s' : Sched} (h : SameRegisters s s') (p : TcbPtr) (v : ThreadState) :
    SameRegisters s (s'.setState p v) :=
  h.modify p fun _ => rfl

theorem pickLoop_registers {fuel : Nat} {p best : Option TcbPtr} {max : Nat} {s₀ s s' : Sched}
    {r : Option TcbPtr × Nat} (h : pickLoop fuel p s best max = .ok (s', r)) (hs : SameRegisters s₀ s) :
    SameRegisters s₀ s' := by
  induction fuel generalizing p s best max with
  | zero =>
    cases p with
    | none => cases h; exact hs
    | some p => cases h
  | succ fuel ih =>
    cases p with
    | none => cases h; exact hs
    | some p =>
      unfold pickLoop at h
      dsimp only at h
      split_ifs at h
      · exact ih h hs
      · exact ih h (hs.modify p fun _ => rfl)
      · exact ih h (hs.modify p fun _ => rfl)

theorem putLast_registers {y z : TcbPtr} {s₀ s s' : Sched} (h : putLast y s = .ok (z, s'))
    (hs : SameRegisters s₀ s) : SameRegisters s₀ s' := by
  obtain ⟨l, -, he⟩ := bind_eq_ok.1 h
  cases he
  have hw := ((hs.setNext l (some y)).setPrev y (some l)).setNext y none
  exact ⟨hw.registers, hw.running⟩

theorem unlinkBest_registers {y z : TcbPtr} {s₀ s s' : Sched} (h : unlinkBest y s = .ok (z, s'))
    (hs : SameRegisters s₀ s) : SameRegisters s₀ s' := by
  unfold unlinkBest at h
  split at h
  · obtain ⟨top, -, he⟩ := bind_eq_ok.1 h
    have hs' : SameRegisters s₀ { s with topTcb := some top } := ⟨hs.registers, hs.running⟩
    exact putLast_registers he (hs'.setPrev top none)
  · cases h
    exact hs
  · exact putLast_registers h ((hs.setNext ..).setPrev ..)

theorem pick_registers {fuel : Nat} {src : InterruptSrc} {s s' : Sched} {y : TcbPtr}
    (h : schedulerPickNextThread fuel src s = .ok (y, s')) : SameRegisters s s' := by
  obtain ⟨⟨s₁, best, max⟩, hloop, h⟩ := bind_eq_ok.1 h
  have hs := pickLoop_registers hloop (.refl s)
  dsimp only at h
  split_ifs at h
  · cases src with
    | tmr =>
      obtain ⟨_, -, he⟩ := bind_eq_ok.1 h
      cases he
      exact hs.setActivePriority ..
    | kbd => cases h
    | gen => cases h
  · obtain ⟨b, -, he⟩ := bind_eq_ok.1 h
    exact unlinkBest_registers he ((hs.setActivePriority ..).setState ..)

/-- What a tick does to the register blocks and to the processor. -/
theorem schedule_registers {fuel : Nat} {frame : Mem} {src : InterruptSrc} {s s' : Sched}
    (h : schedule fuel frame src s = .ok s') : ∃ r y, s.runningTcb = some r ∧ s'.runningTcb = some y ∧
      s'.cpu = switchThreads (s'.tcbs y).registers ∧
      ∀ p, (s'.tcbs p).registers = if p = r then saveFrame (s.tcbs p).registers frame else (s.tcbs p).registers := by
  obtain ⟨⟨y, s₁⟩, hpick, hswitch⟩ := bind_eq_ok.1 h
  obtain ⟨r, hr, he⟩ := bind_eq_ok.1 hswitch
  have hs := pick_registers hpick
  have hrun : s.runningTcb = some r := by
    rw [← hs.running]
    cases hs₁ : s₁.runningTcb with
    | none => rw [hs₁] at hr; cases hr
    | some r' => rw [hs₁] at hr; cases hr; rfl
  cases he
  refine ⟨r, y, hrun, rfl, rfl, fun p => ?_⟩
  rw [switch_tcbs]
  simp only [hs.registers]

theorem add_registers {p : TcbPtr} {tcb : Tcb} {s s' : Sched}
    (h : schedulerAddThread p (s.modify p fun _ => tcb) = .ok s') :
    (∀ x, x ≠ p → (s'.tcbs x).registers = (s.tcbs x).registers) ∧ s'.runningTcb = s.runningTcb := by
  rw [schedulerAddThread_eq] at h
  cases hput : putLast p (s.modify p fun _ => tcb) with
  | error e => rw [hput] at h; cases h
  | ok r =>
    rw [hput] at h
    cases h
    have hs := putLast_registers hput (.refl _)
    refine ⟨fun x hx => (hs.registers x).trans ?_, hs.running⟩
    rw [Sched.tcbs_modify_of_ne s hx]

/-- The registers of an interrupted thread are what its control block holds until it is dispatched. -/
theorem ResumesWith.cpu_eq {t : TcbPtr} {s : Sched} {out : Cpu} (h : ResumesWith t s out) {c : Cpu}
    (hblock : switchThreads (s.tcbs t).registers = c) (hcpu : s.runningTcb = some t → s.cpu = c) : out = c := by
  induction h with
  | now hr => exact hcpu hr
  | tick fuel c' cr2 cr4 stack hne htick _ ih =>
    obtain ⟨r, y, hr, hy, hload, hregs⟩ := schedule_registers htick
    have htr : t ≠ r := by
      rintro rfl
      exact hne hr
    have hsame := hregs t
    rw [if_neg htr] at hsame
    refine ih (by rw [hsame, hblock]) fun hyt => ?_
    rw [hy, Option.some.injEq] at hyt
    rw [hload, hyt, hsame, hblock]
  | add p tcb hne hpt hadd _ ih =>
    obtain ⟨hregs, hrun⟩ := add_registers hadd
    refine ih (by rw [hregs t hpt.symm, hblock]) fun hyt => ?_
    exact absurd (hrun.symm.trans hyt) hne

/-- A thread goes on with its registers rotated, whatever ran in between. -/
theorem resumes_rotated {t : TcbPtr} {s s' : Sched} {fuel : Nat} {c out : Cpu} {cr2 cr4 : BitVec 64} {stack : Stack}
    (hrun : s.runningTcb = some t) (htick : timerTick fuel c cr2 cr4 stack s = .ok s') (hres : ResumesWith t s' out) :
    out = rotated c := by
  obtain ⟨r, y, hr, hy, hload, hregs⟩ := schedule_registers htick
  rw [hrun, Option.some.injEq] at hr
  subst hr
  have hblock : switchThreads (s'.tcbs t).registers = rotated c := by
    rw [hregs, if_pos rfl]
    exact switchThreads_saveFrame ..
  refine hres.cpu_eq hblock fun hyt => ?_
  rw [hy, Option.some.injEq] at hyt
  rw [hload, hyt, hblock]

/-- For every thread, all register contents and every run until it is dispatched again: it goes on
with the registers it was interrupted with exactly when those the layouts exchange are equal. -/
theorem preemption_preserves_registers_iff {t : TcbPtr} {s s' : Sched} {fuel : Nat} {c out : Cpu}
    {cr2 cr4 : BitVec 64} {stack : Stack} (hrun : s.runningTcb = some t)
    (htick : timerTick fuel c cr2 cr4 stack s = .ok s') (hres : ResumesWith t s' out) :
    out = c ↔
      (c.gpr .rbp = c.gpr .rdi ∧ c.gpr .rdi = c.gpr .rsi) ∧ c.gpr .rbx = c.gpr .rcx ∧ c.gpr .rcx = c.gpr .rdx := by
  rw [resumes_rotated hrun htick hres]
  exact rotated_eq_iff c

/-! ## A thread alone -/

/-- The only thread is dispatched by the first tick, interrupted by the second and resumed by it. -/
theorem alone_resumes (c : Cpu) : ∃ s s', SchedReach ⟨[firstTcb], 1, s⟩ ∧ s.runningTcb = some firstTcb ∧
    timerTick 2 c 0 0 [] s = .ok s' ∧ ResumesWith firstTcb s' s'.cpu := by
  have h₀ : SchedReach ⟨[firstTcb], 0, schedulerInit firstTcb idle⟩ := .init rfl (by decide) ⟨by decide, rfl⟩
  have dispatch : ∀ {n s}, SchedReach ⟨[firstTcb], n, s⟩ → ∀ frame,
      ∃ s', schedule 2 frame .tmr s = .ok s' ∧ s'.runningTcb = some firstTcb := by
    intro n s h frame
    obtain ⟨q, y, hi⟩ := h.inv
    obtain ⟨s', hs'⟩ := hi.serves.ticks 2 frame (Nat.lt_succ_self 1)
    obtain ⟨z, hz, hrun⟩ := hi.serves.dispatched _ _ _ hs'
    rw [List.mem_singleton.1 hz] at hrun
    exact ⟨s', hs', hrun⟩
  obtain ⟨s, hs, hrun⟩ := dispatch h₀ fun _ => 0
  have h₁ : SchedReach ⟨[firstTcb], 1, s⟩ := .step h₀ (.tick 2 (fun _ => 0) hs)
  obtain ⟨s', hs', hrun'⟩ := dispatch h₁ (timerFrame c 0 (BitVec.ofNat 64 s.cr3) 0 [])
  exact ⟨s, s', h₁, hrun, hs', .now hrun'⟩

/-- Only `rbp` is set. -/
def rbpOne : Cpu := ⟨fun r => if r = .rbp then 1 else 0, 0, 0x08, 0x202, 0, 0x10⟩

/-- A thread interrupted with 1 in `rbp` goes on with 1 in `rsi`. -/
theorem preemption_moves_rbp : ∃ s s', SchedReach ⟨[firstTcb], 1, s⟩ ∧ s.runningTcb = some firstTcb ∧
    timerTick 2 rbpOne 0 0 [] s = .ok s' ∧ ResumesWith firstTcb s' s'.cpu ∧
      s'.cpu ≠ rbpOne ∧ s'.cpu.gpr .rsi = 1 := by
  obtain ⟨s, s', h, hrun, htick, hres⟩ := alone_resumes rbpOne
  have hcpu := resumes_rotated hrun htick hres
  refine ⟨s, s', h, hrun, htick, hres, ?_, by rw [hcpu]; rfl⟩
  rw [hcpu, Ne, rotated_eq_iff]
  decide

/-- All registers 0. -/
def allZero : Cpu := ⟨fun _ => 0, 0, 0x08, 0x202, 0, 0x10⟩

theorem preemption_preserves_registers_allZero : ∃ s s', s.runningTcb = some firstTcb ∧
    timerTick 2 allZero 0 0 [] s = .ok s' ∧ s'.cpu = allZero := by
  obtain ⟨s, s', -, hrun, htick, hres⟩ := alone_resumes allZero
  exact ⟨s, s', hrun, htick, (preemption_preserves_registers_iff hrun htick hres).2 (by decide)⟩

end Icarus.Processes
