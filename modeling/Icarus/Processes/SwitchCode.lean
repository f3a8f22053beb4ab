/-
The timer interrupt down to the machine code: the bytes of the frame the stub leaves on the stack are those the
scheduler is handed, and `_switch_threads` with its `iretq` loads what the scheduler's step says, so that the tick of
the scheduler is what the processor does between two instructions of a thread.
-/
import Icarus.Interrupts.Stubs

namespace Icarus.Processes

open Icarus.Base Icarus.Interrupts

/-- `_switch_threads`, up to its `iretq`. -/
def switchThreadsCode : List Asm :=
  [.pushMem (.at .rdi 152), .pushMem (.at .rdi 144), .pushMem (.at .rdi 136), .pushMem (.at .rdi 128),
    .pushMem (.at .rdi 120),
    .load .r15 (.at .rdi 0), .load .r14 (.at .rdi 8), .load .r13 (.at .rdi 16), .load .r12 (.at .rdi 24),
    .load .r11 (.at .rdi 32), .load .r10 (.at .rdi 40), .load .r9 (.at .rdi 48), .load .r8 (.at .rdi 56),
    .load .rbp (.at .rdi 64), .load .rsi (.at .rdi 80), .load .rdx (.at .rdi 88), .load .rcx (.at .rdi 96),
    .load .rbx (.at .rdi 104), .load .rax (.at .rdi 112),
    .load .rdi (.at .rdi 72)]

/-- The size of the block `_switch_threads` loads. -/
def cpuRegsSize : Nat := 160

/-! ## Reading a block beside the stack -/

section
variable {v : StackView Gpr SpecialReg} {block : Mem}

/-- `rdi` points to a block outside the window. -/
structure PointsTo (v : StackView Gpr SpecialReg) (block : Mem) : Prop where
  outside : (v.reg .rdi).toNat + cpuRegsSize ≤ v.lo ∨ v.hi ≤ (v.reg .rdi).toNat
  fits : (v.reg .rdi).toNat + cpuRegsSize ≤ 2 ^ 64
  bytes : ∀ x < cpuRegsSize, v.mem ((v.reg .rdi).toNat + x) = block x

theorem PointsTo.read (h : PointsTo v block) {k : Nat} (hk : k + 8 ≤ cpuRegsSize) :
    v.read (Operand.addr v.reg v.special (.at .rdi k)) = some (block.load64 k) := by
  have hfits := h.fits
  have hout := h.outside
  rw [Operand.addr_at (by omega), StackView.read_eq_some (by omega)]
  exact congrArg some (Mem.load_shift fun x hx => by rw [Nat.add_assoc]; exact h.bytes _ (by omega))

theorem PointsTo.of_reg (h : PointsTo v block) {reg : Gpr → BitVec 64} (hrdi : reg .rdi = v.reg .rdi) :
    PointsTo { v with reg := reg } block where
  outside := by
    show (reg .rdi).toNat + cpuRegsSize ≤ v.lo ∨ v.hi ≤ (reg .rdi).toNat
    rw [hrdi]
    exact h.outside
  fits := by
    dsimp only
    rw [hrdi]
    exact h.fits
  bytes := by
    dsimp only
    rw [hrdi]
    exact h.bytes

/-- Pushes from the block. -/
theorem PointsTo.run_pushes (h : PointsTo v block) (ks : List Nat) (hks : ∀ k ∈ ks, k + 8 ≤ cpuRegsSize)
    (hroom : ks.length ≤ v.room) :
    v.run (ks.map fun k => .pushMem (.at .rdi k)) =
      some { v with room := v.room - ks.length, stack := (ks.map block.load64).reverse ++ v.stack } := by
  induction ks generalizing v with
  | nil => rfl
  | cons k ks ih =>
    obtain ⟨reg, special, lo, room, stack, mem⟩ := v
    obtain ⟨room, rfl⟩ : ∃ n, room = n + 1 := ⟨room - 1, by simp at hroom; omega⟩
    have hstep : StackView.exec (.pushMem (.at .rdi k)) ⟨reg, special, lo, room + 1, stack, mem⟩ =
        some ⟨reg, special, lo, room, block.load64 k :: stack, mem⟩ :=
      StackView.exec_pushMem (h.read (hks k (by simp)))
    have hnext : PointsTo ⟨reg, special, lo, room, block.load64 k :: stack, mem⟩ block := by
      have hout := h.outside
      simp only [StackView.hi] at hout
      refine ⟨?_, h.fits, h.bytes⟩
      simp only [StackView.hi, List.length_cons]
      omega
    rw [List.map_cons, StackView.run_cons, hstep]
    refine (ih hnext (fun k' hk' => hks k' (by simp [hk'])) (by simpa using hroom)).trans ?_
    simp

/-- Loads from the block into registers other than `rdi`. -/
theorem PointsTo.run_loads (h : PointsTo v block) (ds : List (Gpr × Nat))
    (hds : ∀ d ∈ ds, d.1 ≠ .rdi ∧ d.2 + 8 ≤ cpuRegsSize) :
    ∃ w, v.run (ds.map fun d => .load d.1 (.at .rdi d.2)) = some w ∧ PointsTo w block ∧
      w = { v with reg := ds.foldl (fun reg d => Function.update reg d.1 (block.load64 d.2)) v.reg } := by
  induction ds generalizing v with
  | nil => exact ⟨v, rfl, h, rfl⟩
  | cons d ds ih =>
    obtain ⟨hd, hk⟩ := hds d (by simp)
    obtain ⟨w, hrun, hw, heq⟩ := ih (h.of_reg (Function.update_of_ne hd.symm (block.load64 d.2) v.reg))
      fun d' hd' => hds d' (by simp [hd'])
    refine ⟨w, ?_, hw, heq⟩
    rw [List.map_cons, StackView.run_cons, StackView.exec_load d.1 (h.read hk)]
    exact hrun

end

/-! ## The switch -/

/-- What `_switch_threads` is called with: a block of registers beside the 40 bytes it uses of the stack. -/
structure SwitchCall (m : Core) (block : Mem) : Prop where
  room : 40 ≤ m.rsp.toNat
  outside : (m.reg .rdi).toNat + cpuRegsSize ≤ m.rsp.toNat - 40 ∨ m.rsp.toNat ≤ (m.reg .rdi).toNat
  fits : (m.reg .rdi).toNat + cpuRegsSize ≤ 2 ^ 64
  bytes : ∀ x < cpuRegsSize, m.mem ((m.reg .rdi).toNat + x) = block x

/-- The code loads what the scheduler's step loads. -/
theorem switchThreadsCode_eq {m : Core} {block : Mem} (h : SwitchCall m block) (callee : Core → Core) :
    iretq (m.run callee switchThreadsCode) = switchThreads block := by
  have hroom := h.room
  have hshows := Machine.Shows.initial (m := m) (n := 5) (by omega)
  have hpoints : PointsTo ⟨m.reg, m.special, m.rsp.toNat - 8 * 5, 5, [], m.mem⟩ block := by
    refine ⟨?_, h.fits, h.bytes⟩
    have hout := h.outside
    simp only [StackView.hi, List.length_nil]
    omega
  have hpush := hpoints.run_pushes [152, 144, 136, 128, 120] (by decide) (le_refl 5)
  have hpushed : PointsTo ⟨m.reg, m.special, m.rsp.toNat - 8 * 5, 0,
      [block.load64 120, block.load64 128, block.load64 136, block.load64 144, block.load64 152], m.mem⟩ block :=
    ⟨hpoints.outside, hpoints.fits, hpoints.bytes⟩
  obtain ⟨w, hload, hw, rfl⟩ := hpushed.run_loads [(.r15, 0), (.r14, 8), (.r13, 16), (.r12, 24), (.r11, 32),
    (.r10, 40), (.r9, 48), (.r8, 56), (.rbp, 64), (.rsi, 80), (.rdx, 88), (.rcx, 96), (.rbx, 104), (.rax, 112)]
    (by decide)
  have hlast := StackView.exec_load .rdi (hw.read (k := 72) (by decide))
  have hrun : StackView.run switchThreadsCode _ = _ :=
    (StackView.run_append hpush).trans ((StackView.run_append hload).trans ((StackView.run_singleton ..).trans hlast))
  rw [iretq_of_shows (hshows.run callee hrun) rfl]
  refine Cpu.ext (funext fun r => ?_) rfl rfl rfl rfl rfl
  cases r <;> rfl

/-! ## The timer -/

theorem extractLsb'_load64 (m : Mem) (a : Nat) {k : Nat} (hk : k < 8) :
    (m.load64 a).extractLsb' (8 * k) 8 = m (a + k) := by
  apply BitVec.eq_of_getLsbD_eq
  intro i hi
  rw [BitVec.getLsbD_extractLsb', Mem.load_getLsbD _ _ _ _ (by omega), show (8 * k + i) / 8 = k by omega,
    show (8 * k + i) % 8 = i by omega]
  simp [hi]

/-- The bytes above the stack pointer are those of the list. -/
theorem bytes_of_shows {m : Core} {v : StackView Gpr SpecialReg} (h : m.Shows v) {x : Nat}
    (hx : x < 8 * v.stack.length) : m.mem (m.rsp.toNat + x) = stackBytes v.stack x := by
  have hload := h.stack (x / 8) (by omega)
  have hbyte := extractLsb'_load64 m.mem (v.lo + 8 * (v.room + x / 8)) (Nat.mod_lt x (by decide : 0 < 8))
  rw [hload] at hbyte
  unfold stackBytes
  rw [List.getD_eq_getElem _ _ (by omega), hbyte, h.rsp]
  exact congrArg m.mem (by omega)

/-- The scheduler reads 200 bytes of the frame. -/
theorem schedule_congr {frame frame' : Mem} (h : ∀ x < 200, frame x = frame' x) (fuel : Nat) (src : InterruptSrc)
    (s : Sched) : schedule fuel frame src s = schedule fuel frame' src s := by
  have hsave : ∀ regs, saveFrame regs frame = saveFrame regs frame' := by
    intro regs
    have hcopy : ∀ regs' d k n, k + n ≤ 200 → Mem.copy regs' d frame k n = Mem.copy regs' d frame' k n := by
      intro regs' d k n hle
      funext x
      unfold Mem.copy
      split_ifs
      · exact h _ (by omega)
      · rfl
    unfold saveFrame
    rw [hcopy _ _ _ _ (by decide), hcopy _ _ _ _ (by decide)]
  have hsaved : ∀ r s, saveRunning r frame s = saveRunning r frame' s := by
    intro r s
    unfold saveRunning
    simp only [hsave]
  unfold schedule contextSwitch
  simp only [hsaved]

/-- The timer tick in machine code: from the interrupted program to the call of `c_isr`, with the scheduler on the
bytes it finds there, and from any call of `_switch_threads` with the block of the thread it has picked to the
instruction behind the `iretq`, it is the tick of the scheduler. -/
theorem timer_tick_in_machine_code {fuel : Nat} {top : BitVec 64} (c : Cpu) {special : SpecialReg → BitVec 64}
    (mem : Mem) {s s' : Sched} (hroom : 8 * 26 ≤ alignedTop top) (hcr3 : special .cr3 = BitVec.ofNat 64 s.cr3)
    (hs : let m := atCall 32 top none c special mem
      schedule fuel (fun x => m.mem ((m.reg .rdi).toNat + x)) .tmr s = .ok s') :
    timerTick fuel c (special .cr2) (special .cr4) [] s = .ok s' ∧
      ∃ y, s'.runningTcb = some y ∧ ∀ m callee, SwitchCall m (s'.tcbs y).registers →
        iretq (m.run callee switchThreadsCode) = s'.cpu := by
  have hexpected : ErrorAsExpected 32 none := iff_of_false (by simp) (by decide)
  have hrsp := atCall_rdi 32 none c special mem hroom
  obtain ⟨reg, h, -⟩ := atCall_shows 32 none c special mem hroom
  rw [pushedBelow_expected hexpected] at h
  have hframe : ∀ x < 200, (atCall 32 top none c special mem).mem
      (((atCall 32 top none c special mem).reg .rdi).toNat + x) =
      timerFrame c (special .cr2) (BitVec.ofNat 64 s.cr3) (special .cr4) [] x := by
    intro x hx
    rw [← hrsp, bytes_of_shows h hx, ← hcr3]
    rfl
  have htick : timerTick fuel c (special .cr2) (special .cr4) [] s = .ok s' :=
    (schedule_congr (fun x hx => (hframe x hx).symm) fuel .tmr s).trans hs
  obtain ⟨r, y, -, hy, hload, -⟩ := schedule_registers htick
  refine ⟨htick, y, hy, fun m callee hm => ?_⟩
  rw [hload, switchThreadsCode_eq hm]

/-- The first thread alone, dispatched by a tick: the next tick is taken whatever it saves. -/
theorem alone_ticks : ∃ s, SchedReach ⟨[firstTcb], 1, s⟩ ∧ s.runningTcb = some firstTcb ∧
    ∀ frame, ∃ s', schedule 2 frame .tmr s = .ok s' := by
  have h₀ : SchedReach ⟨[firstTcb], 0, schedulerInit firstTcb idle⟩ := .init rfl (by decide) ⟨by decide, rfl⟩
  have hticks : ∀ {n s}, SchedReach ⟨[firstTcb], n, s⟩ → ∀ frame, ∃ s', schedule 2 frame .tmr s = .ok s' ∧
      s'.runningTcb = some firstTcb := by
    intro n s h frame
    obtain ⟨q, y, hi⟩ := h.inv
    obtain ⟨s', hs'⟩ := hi.serves.ticks 2 frame (Nat.lt_succ_self 1)
    obtain ⟨z, hz, hrun⟩ := hi.serves.dispatched _ _ _ hs'
    exact ⟨s', hs', List.mem_singleton.1 hz ▸ hrun⟩
  obtain ⟨s, hs, hrun⟩ := hticks h₀ fun _ => 0
  have h₁ : SchedReach ⟨[firstTcb], 1, s⟩ := .step h₀ (.tick 2 (fun _ => 0) hs)
  exact ⟨s, h₁, hrun, fun frame => (hticks h₁ frame).imp fun _ h => h.1⟩

/-- The control registers when only `cr3` matters. -/
def onlyCr3 (root : Nat) : SpecialReg → BitVec 64
  | .cr3 => BitVec.ofNat 64 root
  | _ => 0

theorem timer_tick_in_machine_code_alone : ∃ s s', s.runningTcb = some firstTcb ∧
    timerTick 2 rbpOne 0 0 [] s = .ok s' ∧ ∃ y, s'.runningTcb = some y := by
  obtain ⟨s, -, hrun, hticks⟩ := alone_ticks
  obtain ⟨s', hs'⟩ := hticks _
  obtain ⟨htick, y, hy, -⟩ := timer_tick_in_machine_code rbpOne (fun _ => 0)
    (by decide : 8 * 26 ≤ alignedTop 0x1000) (rfl : onlyCr3 s.cr3 .cr3 = BitVec.ofNat 64 s.cr3) hs'
  exact ⟨s, s', hrun, htick, y, hy⟩

end Icarus.Processes
