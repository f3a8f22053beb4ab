/-
The programs kmain starts as processes (kernel.c), in machine code: what they do when nobody disturbs them, and what
they do in the system, where each preemption rotates six registers. They survive it with their picture, except at one
place: between the two instructions that set up a round.
-/
import Icarus.Processes.Thread
import Icarus.Processes.VirtualCpus

namespace Icarus.Processes

open Icarus.Base Icarus.Interrupts

/-! ## The instructions -/

/-- The instructions the programs are made of. -/
inductive Instr
  | mov (r : Gpr) (v : BitVec 32)
  | cld
  | repStosd
  | jmp (rel : BitVec 8)
  deriving DecidableEq, Repr

/-- The instruction at an address, with its length. -/
def decode (m : Mem) (a : Nat) : Option (Instr × Nat) :=
  if m a = 0xB8 then some (.mov .rax (m.load (a + 1) 4), 5)
  else if m a = 0xB9 then some (.mov .rcx (m.load (a + 1) 4), 5)
  else if m a = 0xBF then some (.mov .rdi (m.load (a + 1) 4), 5)
  else if m a = 0xFC then some (.cld, 1)
  else if m a = 0xEB then some (.jmp (m (a + 1)), 2)
  else if m a = 0xF3 ∧ m (a + 1) = 0xAB then some (.repStosd, 2)
  else none

/-- The direction flag. -/
def directionFlag : Nat := 10

/-- A double word and the address where it is stored. -/
abbrev DwordStore := Nat × BitVec 32

/-- An instruction; of `rep stosd` one iteration, between two of which an interrupt may come. -/
def Instr.exec (c : Cpu) (len : Nat) : Instr → Cpu × Option DwordStore
  | .mov r v => ({ c with gpr := Function.update c.gpr r (v.setWidth 64), rip := c.rip + BitVec.ofNat 64 len }, none)
  | .cld => ({ c with rflags := c.rflags &&& ~~~(1#64 <<< directionFlag), rip := c.rip + BitVec.ofNat 64 len }, none)
  | .jmp rel => ({ c with rip := c.rip + BitVec.ofNat 64 len + rel.signExtend 64 }, none)
  | .repStosd =>
    if c.gpr .rcx = 0 then ({ c with rip := c.rip + BitVec.ofNat 64 len }, none)
    else
      let next := if c.rflags.getLsbD directionFlag then c.gpr .rdi - 4 else c.gpr .rdi + 4
      ({ c with gpr := Function.update (Function.update c.gpr .rdi next) .rcx (c.gpr .rcx - 1) },
        some ((c.gpr .rdi).toNat, (c.gpr .rax).setWidth 32))

/-- The next step of a thread, and what it stores. -/
def instrStep (m : Mem) (c : Cpu) : Option (Cpu × Option DwordStore) :=
  (decode m c.rip.toNat).map fun i => i.1.exec c i.2

/-- The tables of the thread let it write all of the double word at `a`. -/
def DwordWritable (writable : Nat → Bool) (a : Nat) : Prop := ∀ k < 4, writable (a + k)

instance (writable : Nat → Bool) (a : Nat) : Decidable (DwordWritable writable a) :=
  inferInstanceAs (Decidable (∀ k < 4, writable (a + k)))

/-- The memory after a store. One that the tables do not allow is a page fault, whose handler stops the processor. -/
def applyStore (writable : Nat → Bool) (m : Mem) : Option DwordStore → Option Mem
  | none => some m
  | some (a, v) => if DwordWritable writable a then some (m.store a 4 v) else none

/-- So many steps, in the memory of the thread. -/
def runCode (writable : Nat → Bool) : (steps : Nat) → Mem → Cpu → Option (Mem × Cpu)
  | 0, m, c => some (m, c)
  | n + 1, m, c => (instrStep m c).bind fun r => (applyStore writable m r.2).bind fun m' => runCode writable n m' r.1

/-! ## The programs -/

/-- A program that fills the screen with what its first instruction sets, again and again. -/
def screenProgram (b1 b2 b3 b4 : BitVec 8) : List (BitVec 8) :=
  [0xB8, b1, b2, b3, b4,           -- mov eax, pattern
   0xFC,                           -- cld
   0xBF, 0x00, 0x80, 0x0B, 0x00,   -- mov edi, 0xB8000
   0xB9, 0xE8, 0x03, 0x00, 0x00,   -- mov ecx, 1000
   0xF3, 0xAB,                     -- rep stosd
   0xEB, 0xF1]                     -- jmp -15, back to cld

/-- `fill_vga`. -/
def fillVga : List (BitVec 8) := screenProgram 0xFF 0xFF 0xFF 0xFF

/-- `color_vga`. -/
def colorVga : List (BitVec 8) := screenProgram 0x11 0x11 0x11 0x11

/-- `clear_vga`. -/
def clearVga : List (BitVec 8) := screenProgram 0x20 0x07 0x20 0x07

/-- The double word such a program fills the screen with. -/
def pattern (b1 b2 b3 b4 : BitVec 8) : BitVec 32 := b4 ++ b3 ++ b2 ++ b1

/-- Where the text buffer starts. -/
def screenStart : Nat := 0xB8000

/-- Where it ends: 80 * 25 cells of two bytes behind its start. -/
def screenEnd : Nat := 0xB8FA0

/-- The code lies at an address. -/
def Holds (code : List (BitVec 8)) (base : Nat) (m : Mem) : Prop :=
  ∀ i (h : i < code.length), m (base + i) = code.get ⟨i, h⟩

/-- The instructions of the program by what they do. -/
inductive Point
  | color | clear | setDst | setCount | fill | again
  deriving DecidableEq, Repr

/-- Where they are. -/
def Point.offset : Point → Nat
  | .color => 0
  | .clear => 5
  | .setDst => 6
  | .setCount => 11
  | .fill => 16
  | .again => 18

section
variable {b1 b2 b3 b4 : BitVec 8} {base : Nat} {m : Mem}

/-- The instruction at each of these places, and its length. -/
def Point.instr (v : BitVec 32) : Point → Instr × Nat
  | .color => (.mov .rax v, 5)
  | .clear => (.cld, 1)
  | .setDst => (.mov .rdi 0xB8000, 5)
  | .setCount => (.mov .rcx 1000, 5)
  | .fill => (.repStosd, 2)
  | .again => (.jmp 0xF1, 2)

theorem load_four (m : Mem) (a : Nat) : m.load a 4 = m (a + 3) ++ m (a + 2) ++ m (a + 1) ++ m a := by
  apply BitVec.eq_of_getLsbD_eq
  intro i hi
  rw [Mem.load_getLsbD m a 4 i hi]
  simp only [BitVec.getLsbD_append]
  interval_cases i <;> rfl

theorem decode_at (h : Holds (screenProgram b1 b2 b3 b4) base m) (p : Point) :
    decode m (base + p.offset) = some (p.instr (pattern b1 b2 b3 b4)) := by
  have hbyte : ∀ i < 20, m (base + i) = (screenProgram b1 b2 b3 b4).getD i 0 := by
    intro i hi
    rw [h i hi, List.getD_eq_getElem _ _ hi]
    rfl
  have hfirst : m base = 0xB8 := hbyte 0 (by decide)
  cases p <;> simp [decode, Point.offset, Point.instr, Nat.add_assoc, load_four, hbyte, hfirst, screenProgram, pattern]

/-- A thread at one of these places. -/
def IsAt (base : Nat) (p : Point) (c : Cpu) : Prop := c.rip = BitVec.ofNat 64 (base + p.offset)

theorem instrStep_at (hcode : Holds (screenProgram b1 b2 b3 b4) base m) (hfits : base + 20 ≤ 2 ^ 64) {p : Point}
    {c : Cpu} (hat : IsAt base p c) : instrStep m c =
      some ((p.instr (pattern b1 b2 b3 b4)).1.exec c (p.instr (pattern b1 b2 b3 b4)).2) := by
  have hoffset : p.offset < 20 := by cases p <;> decide
  have haddr : c.rip.toNat = base + p.offset := by
    rw [hat, BitVec.toNat_ofNat, Nat.mod_eq_of_lt (by omega)]
  rw [instrStep, haddr, decode_at hcode]
  rfl

/-! ## A thread that stays on the screen -/

/-- The rest of a round: so many double words up to the end of the screen. -/
def Rest (a n : BitVec 64) : Prop :=
  a.toNat ≤ screenEnd ∧ (n = 0 ∨ n.toNat ≤ 1000 ∧ a.toNat + 4 * n.toNat = screenEnd)

/-- The round that runs is its rest, and the rests of two others may wait in the registers that are rotated with it. -/
structure Safe (base : Nat) (v : BitVec 32) (p : Point) (c : Cpu) : Prop where
  rip : IsAt base p c
  color : p = .color ∨ c.gpr .rax = v.setWidth 64
  forward : (p = .color ∨ p = .clear ∨ p = .again) ∨ c.rflags.getLsbD directionFlag = false
  current : if p = .setCount then c.gpr .rdi = BitVec.ofNat 64 screenStart else Rest (c.gpr .rdi) (c.gpr .rcx)
  next : Rest (c.gpr .rsi) (c.gpr .rdx)
  last : Rest (c.gpr .rbp) (c.gpr .rbx)

theorem IsAt.advance {p p' : Point} {c c' : Cpu} (h : IsAt base p c) {n : Nat} (hp : p.offset + n = p'.offset)
    (hrip : c'.rip = c.rip + BitVec.ofNat 64 n) : IsAt base p' c' := by
  unfold IsAt at *
  rw [hrip, h, ← BitVec.ofNat_add, Nat.add_assoc, hp]

/-- One of the 1000 double words of the screen. -/
def DwordStore.OnScreen (w : DwordStore) : Prop := ∃ k < 1000, w.1 = screenStart + 4 * k

/-- A double word of a round. -/
theorem Rest.dword {a n : BitVec 64} {v : BitVec 32} (h : Rest a n) (hn : n ≠ 0) :
    Rest (a + 4) (n - 1) ∧ DwordStore.OnScreen (a.toNat, v) := by
  obtain ⟨hle, hend⟩ := h.2.resolve_left hn
  have hpos : 0 < n.toNat := Nat.pos_of_ne_zero fun h => hn (BitVec.eq_of_toNat_eq h)
  have hless : (n - 1).toNat = n.toNat - 1 := BitVec.toNat_sub_of_le hpos
  unfold Rest DwordStore.OnScreen screenEnd screenStart at *
  have hmore : (a + 4).toNat = a.toNat + 4 := by
    rw [BitVec.toNat_add]
    exact Nat.mod_eq_of_lt (by simp; omega)
  refine ⟨⟨by omega, .inr ⟨by omega, by omega⟩⟩, 1000 - n.toNat, by omega, ?_⟩
  show a.toNat = _
  omega

/-- An iteration of `rep stosd` upwards. -/
theorem exec_fill {c : Cpu} (hmore : c.gpr .rcx ≠ 0) (hforward : c.rflags.getLsbD directionFlag = false) :
    Instr.repStosd.exec c 2 =
      ({ c with gpr := Function.update (Function.update c.gpr .rdi (c.gpr .rdi + 4)) .rcx (c.gpr .rcx - 1) },
        some ((c.gpr .rdi).toNat, (c.gpr .rax).setWidth 32)) := by
  rw [Instr.exec, if_neg hmore, hforward]
  rfl

/-- The end of `rep stosd`. -/
theorem exec_filled {c : Cpu} (hdone : c.gpr .rcx = 0) :
    Instr.repStosd.exec c 2 = ({ c with rip := c.rip + BitVec.ofNat 64 2 }, none) := if_pos hdone

/-- The jump goes back to `cld`. -/
theorem IsAt.again {c : Cpu} (h : IsAt base .again c) :
    c.rip + BitVec.ofNat 64 2 + (0xF1#8).signExtend 64 = BitVec.ofNat 64 (base + 5) := by
  have hback : BitVec.ofNat 64 18 + BitVec.ofNat 64 2 + (0xF1#8).signExtend 64 = BitVec.ofNat 64 5 := by decide
  rw [h, Point.offset, BitVec.ofNat_add, BitVec.ofNat_add, BitVec.add_assoc, BitVec.add_assoc, ← hback,
    BitVec.add_assoc]

theorem setWidth_color (v : BitVec 32) : (v.setWidth 64).setWidth 32 = v := by
  rw [BitVec.setWidth_setWidth_of_le _ (by decide), BitVec.setWidth_eq]

/-- One instruction leaves it there, and stores its own pattern on the screen if anything. -/
theorem Safe.step {v : BitVec 32} {p : Point} {c : Cpu} (h : Safe base v p c) :
    (∃ p', Safe base v p' ((p.instr v).1.exec c (p.instr v).2).1) ∧
      ∀ w ∈ ((p.instr v).1.exec c (p.instr v).2).2, w.OnScreen ∧ w.2 = v := by
  obtain ⟨hrip, hcolor, hforward, hcurrent, hnext, hlast⟩ := h
  cases p with
  | color =>
    refine ⟨⟨.clear, hrip.advance rfl rfl, .inr ?_, .inl (.inr (.inl rfl)), hcurrent, hnext, hlast⟩, nofun⟩
    exact Function.update_self Gpr.rax _ c.gpr
  | clear =>
    refine ⟨⟨.setDst, hrip.advance rfl rfl, hcolor.imp (by simp) id, .inr ?_, hcurrent, hnext, hlast⟩, nofun⟩
    simp [Point.instr, Instr.exec, directionFlag]
  | setDst =>
    refine ⟨⟨.setCount, hrip.advance rfl rfl, hcolor.imp (by simp) id, hforward.imp (by simp) id, ?_, hnext, hlast⟩,
      nofun⟩
    rw [if_pos rfl]
    exact Function.update_self Gpr.rdi _ c.gpr
  | setCount =>
    refine ⟨⟨.fill, hrip.advance rfl rfl, hcolor.imp (by simp) id, hforward.imp (by simp) id, ?_, hnext, hlast⟩,
      nofun⟩
    have hdst : (c.gpr .rdi).toNat = screenStart := congrArg BitVec.toNat hcurrent
    exact ⟨hdst.trans_le (by decide), .inr ⟨le_rfl, congrArg (· + 4000) hdst⟩⟩
  | fill =>
    have hrax : c.gpr .rax = v.setWidth 64 := hcolor.resolve_left (by decide)
    have hdf : c.rflags.getLsbD directionFlag = false := hforward.resolve_left (by simp)
    show (∃ p', Safe base v p' (Instr.repStosd.exec c 2).1) ∧ ∀ w ∈ (Instr.repStosd.exec c 2).2, w.OnScreen ∧ w.2 = v
    by_cases hdone : c.gpr .rcx = 0
    · rw [exec_filled hdone]
      exact ⟨⟨.again, hrip.advance rfl rfl, .inr hrax, .inl (.inr (.inr rfl)), hcurrent, hnext, hlast⟩, nofun⟩
    · rw [exec_fill hdone hdf]
      obtain ⟨hrest, hon⟩ := hcurrent.dword hdone
      refine ⟨⟨.fill, hrip, .inr hrax, .inr hdf, hrest, hnext, hlast⟩, ?_⟩
      rintro w ⟨⟩
      rw [hrax, setWidth_color]
      exact ⟨hon, rfl⟩
  | again =>
    exact ⟨⟨.clear, hrip.again, hcolor.imp (by simp) id, .inl (.inr (.inl rfl)), hcurrent, hnext, hlast⟩, nofun⟩

/-- So does a preemption, but for the one place. -/
theorem Safe.rotated {v : BitVec 32} {p : Point} {c : Cpu} (h : Safe base v p c) (hp : p ≠ .setCount) :
    Safe base v p (rotated c) := by
  obtain ⟨hrip, hcolor, hforward, hcurrent, hnext, hlast⟩ := h
  rw [if_neg hp] at hcurrent
  refine ⟨hrip, hcolor, hforward, ?_, hlast, hcurrent⟩
  rw [if_neg hp]
  exact hnext

/-- A thread that was just created starts with general purpose registers of zero. -/
theorem startRegisters_gpr (privileged : Bool) {i : Nat} (hi : i < 15) :
    (startRegisters privileged).load64 (8 * i) = 0 := by
  unfold startRegisters
  dsimp only
  iterate 5 rw [Mem.load64_store64_disjoint _ (by omega)]
  apply BitVec.eq_of_getLsbD_eq
  intro k hk
  rw [Mem.load_getLsbD _ _ _ _ hk]
  simp

theorem startRegisters_iret (privileged : Bool) :
    (startRegisters privileged).load64 120 = BitVec.ofNat 64 threadCodeVirtAddr ∧
      (startRegisters privileged).load64 144 = BitVec.ofNat 64 threadStackVirtAddr := by
  unfold startRegisters
  dsimp only
  constructor
  · iterate 3 rw [Mem.load64_store64_disjoint _ (by decide)]
    exact Mem.load64_store64_same ..
  · iterate 2 rw [Mem.load64_store64_disjoint _ (by decide)]
    exact Mem.load64_store64_same ..

theorem safe_created (privileged : Bool) (v : BitVec 32) :
    Safe threadCodeVirtAddr v .color (switchThreads (startRegisters privileged)) := by
  have hgpr : ∀ i < 15, (startRegisters privileged).load64 (8 * i) = 0 := fun i hi => startRegisters_gpr privileged hi
  have hrest : ∀ i < 15, ∀ k < 15,
      Rest ((startRegisters privileged).load64 (8 * i)) ((startRegisters privileged).load64 (8 * k)) := by
    intro i hi k hk
    rw [hgpr i hi, hgpr k hk]
    exact ⟨Nat.zero_le _, .inl rfl⟩
  refine ⟨(startRegisters_iret privileged).1, .inl rfl, .inl (.inl rfl), ?_, hrest 10 ?_ 11 ?_, hrest 8 ?_ 13 ?_⟩
  · exact hrest 9 (by decide) 12 (by decide)
  all_goals decide

/-! ## In the system -/

/-- What a thread makes of its registers by one instruction. -/
def codeStep (m : Mem) (c : Cpu) : Cpu := ((instrStep m c).map Prod.fst).getD c

/-- A step of the system in which `t` is not preempted between the instructions that set up a round. -/
def ScreenStep (t : TcbPtr) (s : Sched) (l : TcbPtr × CpuEvent) (s' : Sched) : Prop :=
  SystemStep s l s' ∧ (l = (t, .preempted) → ¬IsAt threadCodeVirtAddr .setCount (s.cpuOf t))

/-- Nothing happens to `t` but that it runs this code and is preempted. -/
def RunsCode (code : List (BitVec 8)) (t : TcbPtr) (l : TcbPtr × CpuEvent) : Prop :=
  l.1 = t → l.2 = .preempted ∨ ∃ m, Holds code threadCodeVirtAddr m ∧ l.2 = .ran (codeStep m)

/-- A run of the system from when `t` was created, with such a program as its code. -/
structure ScreenRun (code : List (BitVec 8)) (t : TcbPtr) (s : Sched) (es : List (TcbPtr × CpuEvent)) (s' : Sched) :
    Prop where
  created : ∃ privileged, s.cpuOf t = switchThreads (startRegisters privileged)
  trace : Trace (ScreenStep t) s es s'
  code : ∀ l ∈ es, RunsCode code t l

variable {t : TcbPtr} {s s' : Sched} {es : List (TcbPtr × CpuEvent)}

theorem codeStep_at (hcode : Holds (screenProgram b1 b2 b3 b4) base m) (hfits : base + 20 ≤ 2 ^ 64) {p : Point}
    {c : Cpu} (hat : IsAt base p c) :
    codeStep m c = ((p.instr (pattern b1 b2 b3 b4)).1.exec c (p.instr (pattern b1 b2 b3 b4)).2).1 := by
  rw [codeStep, instrStep_at hcode hfits hat]
  rfl

theorem exec_rsp (i : Instr) (c : Cpu) (n : Nat) : (i.exec c n).1.rsp = c.rsp := by
  cases i with
  | repStosd =>
    unfold Instr.exec
    split_ifs <;> rfl
  | _ => rfl

/-- In a run the thread is safe, and its stack is as it was. -/
theorem ScreenRun.safe (h : ScreenRun (screenProgram b1 b2 b3 b4) t s es s') :
    (∃ p, Safe threadCodeVirtAddr (pattern b1 b2 b3 b4) p (s'.cpuOf t)) ∧
      (s'.cpuOf t).rsp = BitVec.ofNat 64 threadStackVirtAddr := by
  obtain ⟨⟨privileged, hcreated⟩, htrace, hcode⟩ := h
  have hstart : (∃ p, Safe threadCodeVirtAddr (pattern b1 b2 b3 b4) p (s.cpuOf t)) ∧
      (s.cpuOf t).rsp = BitVec.ofNat 64 threadStackVirtAddr := by
    rw [hcreated]
    exact ⟨⟨.color, safe_created privileged _⟩, (startRegisters_iret privileged).2⟩
  clear hcreated
  induction htrace with
  | nil => exact hstart
  | @cons s s₁ s' l ls hstep _ ih =>
    refine ih (fun l' hl' => hcode l' (List.mem_cons_of_mem l hl')) ?_
    obtain ⟨hstep, hgap⟩ := hstep
    have hacts := systemStep_acts s l s₁ hstep
    obtain ⟨⟨p, hsafe⟩, hrsp⟩ := hstart
    by_cases hown : l.1 = t
    · obtain ⟨t, e⟩ := l
      obtain rfl : t = _ := hown
      have hcpu : s₁.cpuOf t = e.act (s.cpuOf t) := by rw [hacts, Function.update_self]
      rw [hcpu]
      rcases hcode _ List.mem_cons_self rfl with rfl | ⟨m, hm, rfl⟩
      · have hp : p ≠ .setCount := by
          rintro rfl
          exact hgap rfl hsafe.rip
        exact ⟨⟨p, hsafe.rotated hp⟩, hrsp⟩
      · show (∃ p, Safe _ _ p (codeStep m _)) ∧ (codeStep m _).rsp = _
        rw [codeStep_at hm (by decide) hsafe.rip, exec_rsp]
        exact ⟨hsafe.step.1, hrsp⟩
    · rw [hacts, Function.update_of_ne (Ne.symm hown)]
      exact ⟨⟨p, hsafe⟩, hrsp⟩

theorem ScreenRun.snoc {code : List (BitVec 8)} {s₁ : Sched} {l : TcbPtr × CpuEvent} (h : ScreenRun code t s es s₁)
    (hstep : ScreenStep t s₁ l s') (hl : RunsCode code t l) : ScreenRun code t s (es ++ [l]) s' :=
  ⟨h.created, h.trace.append (.cons hstep (.nil s')),
    fun l' hl' => (List.mem_append.1 hl').elim (h.code l') fun h => List.mem_singleton.1 h ▸ hl⟩

/-- A thread that runs one of these programs, in any run of the system in which it is not preempted between the two
instructions that set up a round: it is always at one of the program's six instructions, the next thing it stores, if
anything, is its own pattern on one of the double words of the screen, and it never uses its stack. -/
theorem screen_program_confined (h : ScreenRun (screenProgram b1 b2 b3 b4) t s es s')
    (hm : Holds (screenProgram b1 b2 b3 b4) threadCodeVirtAddr m) :
    (∃ p, IsAt threadCodeVirtAddr p (s'.cpuOf t)) ∧ (s'.cpuOf t).rsp = BitVec.ofNat 64 threadStackVirtAddr ∧
      ∃ c w, instrStep m (s'.cpuOf t) = some (c, w) ∧ ∀ x ∈ w, x.OnScreen ∧ x.2 = pattern b1 b2 b3 b4 := by
  obtain ⟨⟨p, hsafe⟩, hrsp⟩ := h.safe
  exact ⟨⟨p, hsafe.rip⟩, hrsp, _, _, instrStep_at hm (by decide) hsafe.rip, hsafe.step.2⟩

end

/-! ## A round -/

/-- So many double words in a row. -/
def fillDwords (m : Mem) (a n : Nat) (v : BitVec 32) : Mem :=
  fun x => if a ≤ x ∧ x < a + 4 * n then v.extractLsb' (8 * ((x - a) % 4)) 8 else m x

section
variable {b1 b2 b3 b4 : BitVec 8} {base a n : Nat} {m : Mem} {v : BitVec 32} {c : Cpu} {writable : Nat → Bool}

theorem fillDwords_zero : fillDwords m a 0 v = m := by
  funext x
  exact if_neg (by omega)

theorem fillDwords_succ : (fillDwords m a n v).store (a + 4 * n) 4 v = fillDwords m a (n + 1) v := by
  funext x
  unfold Mem.store fillDwords
  by_cases hx : a + 4 * n ≤ x ∧ x < a + 4 * n + 4
  · rw [if_pos hx, if_pos (by omega)]
    have hmod : (x - a) % 4 = x - (a + 4 * n) := by omega
    rw [hmod]
  · rw [if_neg hx]
    exact if_congr (by omega) rfl rfl

/-- A double word that is there already. -/
theorem fillDwords_store {k : Nat} (hk : k < n) : (fillDwords m a n v).store (a + 4 * k) 4 v = fillDwords m a n v := by
  funext x
  unfold Mem.store fillDwords
  split_ifs with hx hin
  · have hmod : (x - a) % 4 = x - (a + 4 * k) := by omega
    rw [hmod]
  · omega
  · rfl
  · rfl

theorem Holds.fillDwords (h : Holds (screenProgram b1 b2 b3 b4) base m) (hapart : base + 20 ≤ a ∨ a + 4 * n ≤ base) :
    Holds (screenProgram b1 b2 b3 b4) base (fillDwords m a n v) := by
  intro i hi
  have hlen : i < 20 := hi
  rw [← h i hi]
  exact if_neg (by omega)

theorem runCode_add (i j : Nat) (m : Mem) (c : Cpu) :
    runCode writable (i + j) m c = (runCode writable i m c).bind fun r => runCode writable j r.1 r.2 := by
  induction i generalizing m c with
  | zero =>
    rw [Nat.zero_add]
    rfl
  | succ i ih =>
    rw [Nat.succ_add, runCode]
    conv_rhs => rw [runCode]
    rw [Option.bind_assoc]
    congr 1
    funext r
    rw [Option.bind_assoc]
    congr 1
    funext m'
    exact ih ..

theorem runCode_one (m : Mem) (c : Cpu) :
    runCode writable 1 m c = (instrStep m c).bind fun r => (applyStore writable m r.2).map fun m' => (m', r.1) := by
  unfold runCode
  congr 1
  funext r
  cases applyStore writable m r.2 <;> rfl

theorem applyStore_of_writable (h : DwordWritable writable a) : applyStore writable m (some (a, v)) = some (m.store a 4 v) :=
  if_pos h

theorem applyStore_fault (h : ¬DwordWritable writable a) : applyStore writable m (some (a, v)) = none := if_neg h

/-- The registers after so many iterations of `rep stosd`. -/
def filled (c : Cpu) (i : Nat) : Cpu :=
  let dst := c.gpr .rdi + BitVec.ofNat 64 (4 * i)
  { c with gpr := Function.update (Function.update c.gpr .rdi dst) .rcx (c.gpr .rcx - BitVec.ofNat 64 i) }

@[simp] theorem filled_rcx (i : Nat) : (filled c i).gpr .rcx = c.gpr .rcx - BitVec.ofNat 64 i := by simp [filled]

@[simp] theorem filled_rdi (i : Nat) : (filled c i).gpr .rdi = c.gpr .rdi + BitVec.ofNat 64 (4 * i) := by simp [filled]

@[simp] theorem filled_rax (i : Nat) : (filled c i).gpr .rax = c.gpr .rax := by simp [filled]

theorem filled_zero : filled c 0 = c := by simp [filled]

/-- Another iteration. -/
theorem filled_succ (i : Nat) :
    { filled c i with
      gpr := Function.update (Function.update (filled c i).gpr .rdi ((filled c i).gpr .rdi + 4)) .rcx
        ((filled c i).gpr .rcx - 1) } = filled c (i + 1) := by
  have hdst : c.gpr .rdi + BitVec.ofNat 64 (4 * i) + 4 = c.gpr .rdi + BitVec.ofNat 64 (4 * (i + 1)) := by
    have hfour : BitVec.ofNat 64 (4 * i) + 4 = BitVec.ofNat 64 (4 * i + 4) := (BitVec.ofNat_add ..).symm
    rw [BitVec.add_assoc, hfour]
    rfl
  have hcount : c.gpr .rcx - BitVec.ofNat 64 i - 1 = c.gpr .rcx - BitVec.ofNat 64 (i + 1) := by
    rw [BitVec.ofNat_add, BitVec.sub_sub]
    rfl
  rw [filled_rcx, filled_rdi, hdst, hcount]
  refine Cpu.ext (funext fun r => ?_) rfl rfl rfl rfl rfl
  cases r <;> simp [filled]

theorem filled_rcx_toNat {i : Nat} (hi : i ≤ (c.gpr .rcx).toNat) :
    ((filled c i).gpr .rcx).toNat = (c.gpr .rcx).toNat - i := by
  have hlt := (c.gpr .rcx).isLt
  have hmod : (BitVec.ofNat 64 i).toNat = i := by rw [BitVec.toNat_ofNat, Nat.mod_eq_of_lt (by omega)]
  rw [filled_rcx, BitVec.toNat_sub_of_le (by rw [BitVec.le_def, hmod]; exact hi), hmod]

/-- At `rep stosd`, with the pattern set and the code apart from what is to be filled. -/
structure Filling (b1 b2 b3 b4 : BitVec 8) (base : Nat) (m : Mem) (c : Cpu) : Prop where
  code : Holds (screenProgram b1 b2 b3 b4) base m
  fits : base + 20 ≤ 2 ^ 64
  rip : IsAt base .fill c
  forward : c.rflags.getLsbD directionFlag = false
  color : c.gpr .rax = (pattern b1 b2 b3 b4).setWidth 64
  room : (c.gpr .rdi).toNat + 4 * (c.gpr .rcx).toNat ≤ 2 ^ 64
  apart : base + 20 ≤ (c.gpr .rdi).toNat ∨ (c.gpr .rdi).toNat + 4 * (c.gpr .rcx).toNat ≤ base

/-- The iteration behind so many others. -/
theorem Filling.dword (h : Filling b1 b2 b3 b4 base m c) {i : Nat} (hi : i < (c.gpr .rcx).toNat) :
    instrStep (fillDwords m (c.gpr .rdi).toNat i (pattern b1 b2 b3 b4)) (filled c i) =
      some (filled c (i + 1), some ((c.gpr .rdi).toNat + 4 * i, pattern b1 b2 b3 b4)) := by
  obtain ⟨hcode, hfits, hat, hforward, hcolor, hroom, hapart⟩ := h
  have hmore : (filled c i).gpr .rcx ≠ 0 := by
    intro hzero
    have hcount := filled_rcx_toNat hi.le
    rw [hzero] at hcount
    have hnone : (0 : BitVec 64).toNat = 0 := rfl
    omega
  have haddr : ((filled c i).gpr .rdi).toNat = (c.gpr .rdi).toNat + 4 * i := by
    rw [filled_rdi, BitVec.toNat_add, BitVec.toNat_ofNat, Nat.mod_eq_of_lt (by omega : 4 * i < 2 ^ 64),
      Nat.mod_eq_of_lt (by omega)]
  have hat' : IsAt base .fill (filled c i) := hat
  rw [instrStep_at (hcode.fillDwords (by omega)) hfits hat']
  show some (Instr.repStosd.exec (filled c i) 2) = _
  rw [exec_fill hmore hforward, filled_succ, haddr, filled_rax, hcolor, setWidth_color]

/-- The iterations of `rep stosd` one after the other, as far as the tables allow. -/
theorem Filling.run (h : Filling b1 b2 b3 b4 base m c) : ∀ i ≤ (c.gpr .rcx).toNat,
    (∀ k < i, DwordWritable writable ((c.gpr .rdi).toNat + 4 * k)) →
    runCode writable i m c = some (fillDwords m (c.gpr .rdi).toNat i (pattern b1 b2 b3 b4), filled c i)
  | 0, _, _ => by rw [runCode, fillDwords_zero, filled_zero]
  | i + 1, hi, hw => by
    rw [runCode_add, h.run i (by omega) fun k hk => hw k (by omega), Option.bind_some, runCode_one, h.dword hi,
      Option.bind_some]
    dsimp only
    rw [applyStore_of_writable (hw i (Nat.lt_succ_self i)), Option.map_some, fillDwords_succ]

/-- Behind the first double word that the tables do not allow there is nothing. -/
theorem Filling.faults (h : Filling b1 b2 b3 b4 base m c) {i k : Nat} (hi : i ≤ (c.gpr .rcx).toNat) (hk : k < i)
    (hbad : ¬DwordWritable writable ((c.gpr .rdi).toNat + 4 * k)) : runCode writable i m c = none := by
  induction k using Nat.strong_induction_on with
  | _ k ih =>
    by_cases hw : ∀ k' < k, DwordWritable writable ((c.gpr .rdi).toNat + 4 * k')
    · obtain ⟨n, rfl⟩ : ∃ n, i = k + (1 + n) := ⟨i - k - 1, by omega⟩
      rw [runCode_add, h.run k (by omega) hw, Option.bind_some, runCode_add, runCode_one, h.dword (by omega),
        Option.bind_some]
      dsimp only
      rw [applyStore_fault hbad]
      rfl
    · push Not at hw
      obtain ⟨k', hk', hbad'⟩ := hw
      exact ih k' hk' (by omega) hbad'

theorem runCode_quiet (hm : Holds (screenProgram b1 b2 b3 b4) base m) (hfits : base + 20 ≤ 2 ^ 64) {p : Point}
    (hat : IsAt base p c) (hp : p ≠ .fill) (n : Nat) :
    runCode writable (n + 1) m c =
      runCode writable n m ((p.instr (pattern b1 b2 b3 b4)).1.exec c (p.instr (pattern b1 b2 b3 b4)).2).1 := by
  rw [runCode, instrStep_at hm hfits hat, Option.bind_some]
  cases p with
  | fill => exact absurd rfl hp
  | _ => rfl

/-- The registers with which the first round begins. -/
theorem runCode_setup (hm : Holds (screenProgram b1 b2 b3 b4) base m) (hfits : base + 20 ≤ 2 ^ 64)
    (hat : IsAt base .color c) : ∃ c', runCode writable 4 m c = some (m, c') ∧ IsAt base .fill c' ∧
      c'.rflags.getLsbD directionFlag = false ∧ c'.gpr .rax = (pattern b1 b2 b3 b4).setWidth 64 ∧
      c'.gpr .rdi = BitVec.ofNat 64 screenStart ∧ c'.gpr .rcx = 1000 := by
  generalize hv : pattern b1 b2 b3 b4 = v
  have h₁ : IsAt base .clear ((Instr.mov .rax v).exec c 5).1 := hat.advance rfl rfl
  have h₂ : IsAt base .setDst (Instr.cld.exec ((Instr.mov .rax v).exec c 5).1 1).1 := h₁.advance rfl rfl
  have h₃ : IsAt base .setCount
      ((Instr.mov .rdi 0xB8000).exec (Instr.cld.exec ((Instr.mov .rax v).exec c 5).1 1).1 5).1 := h₂.advance rfl rfl
  have h₄ : IsAt base .fill ((Instr.mov .rcx 1000).exec ((Instr.mov .rdi 0xB8000).exec
      (Instr.cld.exec ((Instr.mov .rax v).exec c 5).1 1).1 5).1 5).1 := h₃.advance rfl rfl
  subst hv
  refine ⟨_, ?_, h₄, ?_, ?_, ?_, ?_⟩
  · rw [runCode_quiet hm hfits hat nofun]
    exact (runCode_quiet hm hfits h₁ nofun 2).trans
      ((runCode_quiet hm hfits h₂ nofun 1).trans (runCode_quiet hm hfits h₃ nofun 0))
  all_goals simp [Instr.exec, directionFlag, screenStart]

/-- The tables let the thread write the screen. -/
def ScreenWritable (writable : Nat → Bool) : Prop := ∀ x, screenStart ≤ x → x < screenEnd → writable x

theorem ScreenWritable.dword (h : ScreenWritable writable) {k : Nat} (hk : k < 1000) :
    DwordWritable writable (screenStart + 4 * k) := by
  intro j hj
  refine h _ ?_ ?_
  · omega
  · unfold screenStart screenEnd
    omega

/-- A safe thread alone: it goes on and on, outside the screen nothing changes, and on it nothing once it is filled. -/
theorem Safe.run {p : Point} (hsafe : Safe base (pattern b1 b2 b3 b4) p c)
    (hm : Holds (screenProgram b1 b2 b3 b4) base m) (hfits : base + 20 ≤ 2 ^ 64)
    (hapart : base + 20 ≤ screenStart ∨ screenEnd ≤ base) (hscreen : ScreenWritable writable) :
    ∀ n, ∃ m' c', runCode writable n m c = some (m', c') ∧ (∃ p', Safe base (pattern b1 b2 b3 b4) p' c') ∧
      (∀ x, x < screenStart ∨ screenEnd ≤ x → m' x = m x) ∧
      ∀ m₀, m = fillDwords m₀ screenStart 1000 (pattern b1 b2 b3 b4) → m' = m
  | 0 => ⟨m, c, rfl, ⟨p, hsafe⟩, fun _ _ => rfl, fun _ _ => rfl⟩
  | n + 1 => by
    obtain ⟨m', c', hrun, ⟨p', hsafe'⟩, hout, hfull⟩ := Safe.run hsafe hm hfits hapart hscreen n
    have hm' : Holds (screenProgram b1 b2 b3 b4) base m' := by
      intro i hi
      have hlen : i < 20 := hi
      rw [hout (base + i) (by omega)]
      exact hm i hi
    obtain ⟨hnext, hstore⟩ := hsafe'.step
    rw [runCode_add, hrun, Option.bind_some, runCode_one, instrStep_at hm' hfits hsafe'.rip, Option.bind_some]
    dsimp only
    generalize ((p'.instr (pattern b1 b2 b3 b4)).1.exec c' (p'.instr (pattern b1 b2 b3 b4)).2).2 = w at hstore ⊢
    rcases w with _ | ⟨a, v⟩
    · exact ⟨_, _, rfl, hnext, hout, hfull⟩
    · obtain ⟨⟨k, hk, rfl⟩, rfl⟩ := hstore (a, v) rfl
      rw [applyStore_of_writable (hscreen.dword hk)]
      refine ⟨_, _, rfl, hnext, fun x hx => ?_, fun m₀ hm₀ => ?_⟩
      · unfold screenStart screenEnd at *
        exact (Mem.store_of_lt (by omega)).trans (hout x hx)
      · rw [hfull m₀ hm₀, hm₀]
        exact fillDwords_store hk

/-- The first round. -/
theorem runCode_round (hm : Holds (screenProgram b1 b2 b3 b4) base m) (hfits : base + 20 ≤ 2 ^ 64)
    (hapart : base + 20 ≤ screenStart ∨ screenEnd ≤ base) (hscreen : ScreenWritable writable)
    (hat : IsAt base .color c) :
    ∃ c', runCode writable 1004 m c = some (fillDwords m screenStart 1000 (pattern b1 b2 b3 b4), c') := by
  obtain ⟨c₁, hsetup, hat, hforward, hcolor, hdst, hcount⟩ := runCode_setup hm hfits hat
  have hlo : (c₁.gpr .rdi).toNat = screenStart := congrArg BitVec.toNat hdst
  have hlen : (c₁.gpr .rcx).toNat = 1000 := congrArg BitVec.toNat hcount
  have hfilling : Filling b1 b2 b3 b4 base m c₁ := by
    refine ⟨hm, hfits, hat, hforward, hcolor, ?_, ?_⟩
    · rw [hlo, hlen]
      decide
    · rw [hlo, hlen]
      exact hapart
  have hround : runCode writable 1000 m c₁ = some (_, filled c₁ 1000) := hfilling.run 1000 hlen.ge (by
    rw [hlo]
    exact fun k hk => hscreen.dword hk)
  rw [hlo] at hround
  rw [runCode_add 4 1000, hsetup, Option.bind_some]
  exact ⟨_, hround⟩

/-- One of these programs alone, from the creation of its thread, when its tables let it write the screen and whatever
else they let it write: it never gets stuck and changes nothing outside the screen, and from the 1004th step on the
screen is filled with its pattern, whatever was on it, and stays so. -/
theorem screen_program_fills (privileged : Bool) (hm : Holds (screenProgram b1 b2 b3 b4) threadCodeVirtAddr m)
    (hscreen : ScreenWritable writable) (n : Nat) :
    ∃ m' c', runCode writable n m (switchThreads (startRegisters privileged)) = some (m', c') ∧
      (∀ x, x < screenStart ∨ screenEnd ≤ x → m' x = m x) ∧
      (1004 ≤ n → m' = fillDwords m screenStart 1000 (pattern b1 b2 b3 b4)) := by
  have hsafe := safe_created privileged (pattern b1 b2 b3 b4)
  have hapart : threadCodeVirtAddr + 20 ≤ screenStart ∨ screenEnd ≤ threadCodeVirtAddr := by decide
  obtain ⟨m', c', hrun, -, hout, -⟩ := hsafe.run hm (by decide) hapart hscreen n
  refine ⟨m', c', hrun, hout, fun hn => ?_⟩
  obtain ⟨m₂, c₂, hrun₂, ⟨p, hsafe₂⟩, hout₂, -⟩ := hsafe.run hm (by decide) hapart hscreen 1004
  obtain ⟨c₁, hround⟩ := runCode_round hm (by decide) hapart hscreen hsafe.rip
  rw [hround] at hrun₂
  obtain ⟨rfl, rfl⟩ := Prod.mk.inj (Option.some.inj hrun₂)
  have hheld : Holds (screenProgram b1 b2 b3 b4) threadCodeVirtAddr
      (fillDwords m screenStart 1000 (pattern b1 b2 b3 b4)) := hm.fillDwords (.inr (by decide))
  obtain ⟨m₃, c₃, hrun₃, -, -, hstays⟩ := hsafe₂.run hheld (by decide) hapart hscreen (n - 1004)
  have hrest : runCode writable (1004 + (n - 1004)) m (switchThreads (startRegisters privileged)) = _ :=
    runCode_add 1004 (n - 1004) m _
  rw [Nat.add_sub_cancel' hn, hrun, hround, Option.bind_some, hrun₃] at hrest
  obtain ⟨rfl, rfl⟩ := Prod.mk.inj (Option.some.inj hrest)
  exact hstays m rfl

/-- A memory that holds nothing but a code. -/
def loaded (code : List (BitVec 8)) (base : Nat) : Mem := fun x => if base ≤ x then code.getD (x - base) 0 else 0

theorem loaded_holds (code : List (BitVec 8)) (base : Nat) : Holds code base (loaded code base) := by
  intro i hi
  rw [loaded, if_pos (Nat.le_add_right base i), Nat.add_sub_cancel_left, List.getD_eq_getElem _ _ hi]
  rfl

/-- What kmain maps for all threads: the page of the screen. -/
def screenPage (x : Nat) : Bool := 0xB8000 ≤ x && x < 0xB9000

theorem screenPage_writable : ScreenWritable screenPage := by
  intro x hlo hhi
  unfold screenStart screenEnd at *
  simp only [screenPage, Bool.and_eq_true, decide_eq_true_eq]
  omega

theorem screen_program_fills_clearVga : ∃ m' c',
    runCode screenPage 2000 (loaded clearVga threadCodeVirtAddr) (switchThreads (startRegisters false)) = some (m', c') ∧
      m' screenStart = 0x20 ∧ m' (screenStart + 3999) = 0x07 := by
  obtain ⟨m', c', hrun, -, hfull⟩ :=
    screen_program_fills false (loaded_holds clearVga threadCodeVirtAddr) screenPage_writable 2000
  rw [hfull (by decide)] at hrun
  exact ⟨_, c', hrun, rfl, rfl⟩

theorem IsAt.unique {p p' : Point} (hfits : base + 20 ≤ 2 ^ 64) (h : IsAt base p c) (h' : IsAt base p' c) : p = p' := by
  have hoffset : ∀ p : Point, p.offset < 20 := by
    intro p
    cases p <;> decide
  have haddr := congrArg BitVec.toNat (h.symm.trans h')
  have hp := hoffset p
  have hp' := hoffset p'
  rw [BitVec.toNat_ofNat, BitVec.toNat_ofNat, Nat.mod_eq_of_lt (by omega), Nat.mod_eq_of_lt (by omega),
    Nat.add_left_cancel_iff] at haddr
  revert haddr
  cases p <;> cases p' <;> decide

/-- Preempted before its count is set, a program fills from where `rsi` pointed. -/
theorem filling_rotated (h : Safe threadCodeVirtAddr (pattern b1 b2 b3 b4) .setCount c)
    (hm : Holds (screenProgram b1 b2 b3 b4) threadCodeVirtAddr m) :
    let c' := ((Instr.mov .rcx 1000).exec (rotated c) 5).1
    Filling b1 b2 b3 b4 threadCodeVirtAddr m c' ∧ c'.gpr .rdi = c.gpr .rsi ∧ (c'.gpr .rcx).toNat = 1000 := by
  intro c'
  have hlo : (c.gpr .rsi).toNat ≤ screenEnd := h.next.1
  have hdst : c'.gpr .rdi = c.gpr .rsi := by simp [c', Instr.exec, rotated]
  have hcount : (c'.gpr .rcx).toNat = 1000 := rfl
  refine ⟨⟨hm, by decide, h.rip.advance rfl rfl, h.forward.resolve_left (by simp), h.color.resolve_left (by decide), ?_,
    ?_⟩, hdst, hcount⟩
  · rw [hdst, hcount]
    exact (Nat.add_le_add_right hlo _).trans (by decide)
  · rw [hdst, hcount]
    exact .inr ((Nat.add_le_add_right hlo _).trans (by decide))

/-- The double word that the thread attempts to store behind so many others. -/
theorem Filling.attempt (h : Filling b1 b2 b3 b4 base m c) {i : Nat} (hi : i < (c.gpr .rcx).toNat)
    (hw : ∀ k < i, DwordWritable writable ((c.gpr .rdi).toNat + 4 * k)) :
    ∃ m' c' c'', runCode writable i m c = some (m', c') ∧
      instrStep m' c' = some (c'', some ((c.gpr .rdi).toNat + 4 * i, pattern b1 b2 b3 b4)) :=
  ⟨_, _, _, h.run i hi.le hw, h.dword hi⟩

/-- All that is attempted in the iterations of a whole round is on the screen. -/
def StaysOnScreen (writable : Nat → Bool) (m : Mem) (c : Cpu) : Prop :=
  ∀ i < 1000, ∀ m' c' c'' w, runCode writable i m c = some (m', c') → instrStep m' c' = some (c'', some w) → w.OnScreen

/-- The round does not leave the screen exactly if it starts where the screen does: from any other place on it, it comes
to the end of the screen before its own. -/
theorem Filling.staysOnScreen_iff (h : Filling b1 b2 b3 b4 base m c) (hcount : (c.gpr .rcx).toNat = 1000)
    (hscreen : ScreenWritable writable) :
    StaysOnScreen writable m c ↔ c.gpr .rdi = BitVec.ofNat 64 screenStart := by
  constructor
  · intro hstays
    obtain ⟨m₀, c₀, c₀', hrun₀, hstep₀⟩ := @Filling.attempt _ _ _ _ _ _ _ writable h 0 (by omega)
      fun k hk => absurd hk (Nat.not_lt_zero k)
    obtain ⟨k, hk, hfirst⟩ := hstays 0 (by decide) _ _ _ _ hrun₀ hstep₀
    have hstart : (c.gpr .rdi).toNat = screenStart + 4 * k := hfirst
    by_contra hne
    have hk0 : k ≠ 0 := by
      rintro rfl
      exact hne (BitVec.eq_of_toNat_eq hstart)
    have hbefore : ∀ i < 1000 - k, DwordWritable writable ((c.gpr .rdi).toNat + 4 * i) := by
      intro i hi
      have hplace : (c.gpr .rdi).toNat + 4 * i = screenStart + 4 * (k + i) := by omega
      rw [hplace]
      exact hscreen.dword (by omega)
    obtain ⟨m', c', c'', hrun', hstep⟩ := h.attempt (by omega) hbefore
    obtain ⟨k', hk', hlast⟩ := hstays (1000 - k) (by omega) _ _ _ _ hrun' hstep
    dsimp only at hlast
    omega
  · intro hstart i hi m' c' c'' w hrun hstep
    have hplace : ∀ i, (c.gpr .rdi).toNat + 4 * i = screenStart + 4 * i := fun i => by rw [hstart]; rfl
    obtain ⟨m₁, c₁, c₁', hrun₁, hstep₁⟩ := h.attempt (by omega : i < (c.gpr .rcx).toNat) fun k hk => by
      rw [hplace]
      exact hscreen.dword (by omega)
    rw [hrun] at hrun₁
    obtain ⟨rfl, rfl⟩ := Prod.mk.inj (Option.some.inj hrun₁)
    rw [hstep] at hstep₁
    obtain rfl := Option.some.inj (Prod.mk.inj (Option.some.inj hstep₁)).2
    exact ⟨i, hi, hplace i⟩

/-- Preempted between the two instructions that set up a round, once: the thread stores upwards from where another
register pointed, up to 4000 bytes, or to where its tables stop it and with it the processor. So what it attempts stays
on the screen if and only if that was the start of it. -/
theorem preempted_in_setup_iff {t : TcbPtr} {s₀ s s' : Sched} {es₀ es : List (TcbPtr × CpuEvent)}
    (hrun : ScreenRun (screenProgram b1 b2 b3 b4) t s₀ es₀ s) (hat : IsAt threadCodeVirtAddr .setCount (s.cpuOf t))
    (h : Trace SystemStep s es s') (hm : Holds (screenProgram b1 b2 b3 b4) threadCodeVirtAddr m)
    (hown : ownLabels Prod.fst t es = [(t, .preempted), (t, .ran (codeStep m))]) (hscreen : ScreenWritable writable) :
    let start := ((s.cpuOf t).gpr .rsi).toNat
    (∀ i < 1000, (∀ k < i, DwordWritable writable (start + 4 * k)) →
      ∃ m' c' c'', runCode writable i m (s'.cpuOf t) = some (m', c') ∧
        instrStep m' c' = some (c'', some (start + 4 * i, pattern b1 b2 b3 b4))) ∧
    (∀ i ≤ 1000, ∀ k < i, ¬DwordWritable writable (start + 4 * k) → runCode writable i m (s'.cpuOf t) = none) ∧
    (StaysOnScreen writable m (s'.cpuOf t) ↔ (s.cpuOf t).gpr .rsi = BitVec.ofNat 64 screenStart) := by
  obtain ⟨⟨p, hsafe⟩, -⟩ := hrun.safe
  obtain rfl : p = .setCount := hsafe.rip.unique (by decide) hat
  have hcpu : s'.cpuOf t = ((Instr.mov .rcx 1000).exec (rotated (s.cpuOf t)) 5).1 := by
    have hown' := h.component systemStep_acts t
    rw [hown] at hown'
    have hat' : IsAt threadCodeVirtAddr .setCount (rotated (s.cpuOf t)) := hat
    exact hown'.trans (codeStep_at hm (by decide) hat')
  obtain ⟨hfilling, hdst, hcount⟩ := filling_rotated hsafe hm
  rw [← hcpu] at hfilling hdst hcount
  rw [← hdst]
  exact ⟨fun i hi hw => hfilling.attempt (by omega) hw, fun i hi k hk hbad => hfilling.faults (by omega) hk hbad,
    hfilling.staysOnScreen_iff hcount hscreen⟩

end

/-! ## With one thread -/

/-- The first thread alone is interrupted whatever its registers are. -/
theorem alone_interrupted : ∃ s : Sched, s.runningTcb = some firstTcb ∧
    ∀ c, ∃ s' : Sched, s'.runningTcb = some firstTcb ∧ SystemStep { s with cpu := c } (firstTcb, .preempted) s' := by
  obtain ⟨s, hreach, hrun, -⟩ := alone_ticks
  obtain ⟨q, y, hi⟩ := hreach.inv
  refine ⟨s, hrun, fun c => ?_⟩
  have hi' : QueueInv [firstTcb] 1 { s with cpu := c } q y :=
    ⟨hi.queue, hi.perm, hi.nonempty, hi.count, hi.dummy, hi.priority, hi.active, hi.running, hi.real, hi.state, hi.tail⟩
  have hserves := QueueInv.serves (r := ⟨[firstTcb], 1, { s with cpu := c }⟩) hi'
  obtain ⟨s', hs'⟩ := hserves.ticks 2 (timerFrame c 0 (BitVec.ofNat 64 s.cr3) 0 []) (Nat.lt_succ_self 1)
  obtain ⟨z, hz, hrun'⟩ := hserves.dispatched _ _ _ hs'
  exact ⟨s', List.mem_singleton.1 hz ▸ hrun', .preempted 2 0 0 [] hrun hs'⟩

/-- The thread is created, and runs some instructions. -/
theorem screenRun_ran {s : Sched} (h : s.runningTcb = some firstTcb) {code : List (BitVec 8)} {m : Mem}
    (hm : Holds code threadCodeVirtAddr m) : ∀ n, ScreenRun code firstTcb
      { s with cpu := switchThreads (startRegisters false) } (List.replicate n (firstTcb, .ran (codeStep m)))
      { s with cpu := (codeStep m)^[n] (switchThreads (startRegisters false)) } := by
  have htrace : ∀ n c, Trace (ScreenStep firstTcb) { s with cpu := c } (List.replicate n (firstTcb, .ran (codeStep m)))
      { s with cpu := (codeStep m)^[n] c } := by
    intro n
    induction n with
    | zero => exact fun c => .nil _
    | succ n ih =>
      exact fun c => .cons ⟨.ran (codeStep m) (s := { s with cpu := c }) h, fun heq => by cases heq⟩ (ih (codeStep m c))
  refine fun n => ⟨⟨false, Sched.cpuOf_running (s := { s with cpu := _ }) h⟩, htrace n _, fun l hl => ?_⟩
  obtain rfl := List.eq_of_mem_replicate hl
  exact fun _ => .inr ⟨m, hm, rfl⟩

theorem screen_program_confined_fillVga : ∃ s es s', ScreenRun fillVga firstTcb s es s' ∧
    (firstTcb, .preempted) ∈ es ∧
    ∃ c w, instrStep (loaded fillVga threadCodeVirtAddr) (s'.cpuOf firstTcb) = some (c, w) ∧
      ∀ x ∈ w, x.OnScreen ∧ x.2 = 0xFFFFFFFF := by
  obtain ⟨s, hrun, hticks⟩ := alone_interrupted
  have hm := loaded_holds fillVga threadCodeVirtAddr
  obtain ⟨s', -, htick⟩ := hticks (switchThreads (startRegisters false))
  have hcreated : Sched.cpuOf { s with cpu := switchThreads (startRegisters false) } firstTcb = _ :=
    Sched.cpuOf_running hrun
  have hscreen := (screenRun_ran hrun hm 0).snoc ⟨htick, fun _ hat => ?_⟩ fun _ => .inl rfl
  · obtain ⟨-, -, c, w, hstep, hstores⟩ := screen_program_confined hscreen hm
    exact ⟨_, _, s', hscreen, List.mem_append_right _ (List.mem_singleton_self _), c, w, hstep, hstores⟩
  · have hat : IsAt _ .setCount (Sched.cpuOf { s with cpu := switchThreads (startRegisters false) } _) := hat
    rw [hcreated] at hat
    exact absurd (hat.unique (by decide) (safe_created false 0).rip) (by decide)

/-- After three instructions the thread is between the two that set up a round, and `rsi` is still zero. -/
theorem created_three {b1 b2 b3 b4 : BitVec 8} {m : Mem} (hm : Holds (screenProgram b1 b2 b3 b4) threadCodeVirtAddr m) :
    IsAt threadCodeVirtAddr .setCount ((codeStep m)^[3] (switchThreads (startRegisters false))) ∧
      ((codeStep m)^[3] (switchThreads (startRegisters false))).gpr .rsi = 0 := by
  have hsafe := safe_created false (pattern b1 b2 b3 b4)
  have hrsi : (switchThreads (startRegisters false)).gpr .rsi = 0 := startRegisters_gpr (i := 10) false (by decide)
  generalize switchThreads (startRegisters false) = c at hsafe hrsi ⊢
  have h₁ : IsAt threadCodeVirtAddr .clear (codeStep m c) ∧ (codeStep m c).gpr .rsi = 0 := by
    rw [codeStep_at hm (by decide) hsafe.rip]
    exact ⟨hsafe.rip.advance rfl rfl, hrsi⟩
  have h₂ : IsAt threadCodeVirtAddr .setDst (codeStep m (codeStep m c)) ∧ (codeStep m (codeStep m c)).gpr .rsi = 0 := by
    rw [codeStep_at hm (by decide) h₁.1]
    exact ⟨h₁.1.advance rfl rfl, h₁.2⟩
  show IsAt _ _ (codeStep m (codeStep m (codeStep m c))) ∧ (codeStep m (codeStep m (codeStep m c))).gpr .rsi = 0
  rw [codeStep_at hm (by decide) h₂.1]
  exact ⟨h₂.1.advance rfl rfl, h₂.2⟩

theorem preempted_in_setup_iff_fillVga : ∃ s s₁ es s', ScreenRun fillVga firstTcb s es s₁ ∧
    Trace SystemStep s₁ [(firstTcb, .preempted), (firstTcb, .ran (codeStep (loaded fillVga threadCodeVirtAddr)))] s' ∧
    (∃ m' c' c'', runCode screenPage 0 (loaded fillVga threadCodeVirtAddr) (s'.cpuOf firstTcb) = some (m', c') ∧
      instrStep m' c' = some (c'', some (0, 0xFFFFFFFF))) ∧
    runCode screenPage 1 (loaded fillVga threadCodeVirtAddr) (s'.cpuOf firstTcb) = none := by
  obtain ⟨s, hrun, hticks⟩ := alone_interrupted
  have hm := loaded_holds fillVga threadCodeVirtAddr
  obtain ⟨hat, hrsi⟩ := created_three hm
  have hscreen := screenRun_ran hrun hm 3
  generalize (codeStep (loaded fillVga threadCodeVirtAddr))^[3] (switchThreads (startRegisters false)) = c
    at hat hrsi hscreen
  obtain ⟨s', hrun', htick⟩ := hticks c
  have hcpu : Sched.cpuOf { s with cpu := c } firstTcb = c := Sched.cpuOf_running hrun
  have htrace := Trace.cons htick (.cons (.ran (codeStep (loaded fillVga threadCodeVirtAddr)) hrun') (.nil _))
  rw [← hcpu] at hat hrsi
  obtain ⟨hstores, hfaults, -⟩ :=
    preempted_in_setup_iff hscreen hat htrace hm (by simp [ownLabels]) screenPage_writable
  have hfirst := hstores 0 (by decide) fun k hk => absurd hk (Nat.not_lt_zero k)
  rw [hrsi] at hfirst hfaults
  exact ⟨_, _, _, _, hscreen, htrace, hfirst, hfaults 1 (by decide) 0 (by decide) (by decide)⟩

end Icarus.Processes
