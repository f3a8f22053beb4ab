/-
Straight-line machine code over a stack in byte memory, and the view of it as code over a list: as long as the code
keeps to a window of the memory, what the pushes put there is what the pops of the list find, and nothing outside the
window changes. A called function may do anything that leaves the part of the window in use alone.
-/
import Icarus.Base.Bytes
import Mathlib.Tactic

namespace Icarus.Base

/-- A processor with the general purpose registers `R` and the others `S`. -/
@[ext] structure Machine (R S : Type) where
  reg : R → BitVec 64
  special : S → BitVec 64
  rsp : BitVec 64
  mem : Mem

/-- A memory operand, relative to a register. -/
inductive Operand (R S : Type)
  | at (r : R) (disp : Nat)
  | segment (s : S) (disp : Nat)

/-- The instructions, the call of the one function a program calls among them. -/
inductive Instr (R S : Type)
  | push (r : R)
  | pushImm (v : BitVec 64)
  | pushMem (a : Operand R S)
  | pop (r : R)
  | popRsp
  | mov (d s : R)
  | movSpecial (d : R) (s : S)
  | load (d : R) (a : Operand R S)
  | loadRsp (a : Operand R S)
  | storeRsp (a : Operand R S)
  | leaRsp (d : R)
  | addRsp (n : Nat)
  | exchange (s t : S)
  | call

section
variable {R S : Type}

/-- The address of an operand. -/
def Operand.addr (reg : R → BitVec 64) (special : S → BitVec 64) : Operand R S → Nat
  | .at r disp => (reg r + BitVec.ofNat 64 disp).toNat
  | .segment s disp => (special s + BitVec.ofNat 64 disp).toNat

theorem Operand.addr_at {reg : R → BitVec 64} {special : S → BitVec 64} {r : R} {disp : Nat}
    (h : (reg r).toNat + disp < 2 ^ 64) : Operand.addr reg special (.at r disp) = (reg r).toNat + disp := by
  show (reg r + BitVec.ofNat 64 disp).toNat = _
  rw [BitVec.toNat_add, BitVec.toNat_ofNat, Nat.add_mod_mod, Nat.mod_eq_of_lt h]

namespace Machine

/-- `push`. -/
def push (v : BitVec 64) (m : Machine R S) : Machine R S :=
  { m with rsp := m.rsp - 8, mem := m.mem.store64 (m.rsp - 8).toNat v }

/-- The quadword on top of the stack. -/
def top (m : Machine R S) : BitVec 64 := m.mem.load64 m.rsp.toNat

/-- Takes the top of the stack off. -/
def drop (m : Machine R S) : Machine R S := { m with rsp := m.rsp + 8 }

variable [DecidableEq R] [DecidableEq S]

/-- `mov r, v`. -/
def set (r : R) (v : BitVec 64) (m : Machine R S) : Machine R S := { m with reg := Function.update m.reg r v }

/-- One instruction; `callee` is what a call does until it has returned. -/
def exec (callee : Machine R S → Machine R S) : Instr R S → Machine R S → Machine R S
  | .push r, m => m.push (m.reg r)
  | .pushImm v, m => m.push v
  | .pushMem a, m => m.push (m.mem.load64 (a.addr m.reg m.special))
  | .pop r, m => m.drop.set r m.top
  | .popRsp, m => { m with rsp := m.top }
  | .mov d s, m => m.set d (m.reg s)
  | .movSpecial d s, m => m.set d (m.special s)
  | .load d a, m => m.set d (m.mem.load64 (a.addr m.reg m.special))
  | .loadRsp a, m => { m with rsp := m.mem.load64 (a.addr m.reg m.special) }
  | .storeRsp a, m => { m with mem := m.mem.store64 (a.addr m.reg m.special) m.rsp }
  | .leaRsp d, m => m.set d m.rsp
  | .addRsp n, m => { m with rsp := m.rsp + BitVec.ofNat 64 n }
  | .exchange s t, m => { m with special := m.special ∘ Equiv.swap s t }
  | .call, m => callee m

/-- A program. -/
def run (callee : Machine R S → Machine R S) (is : List (Instr R S)) (m : Machine R S) : Machine R S :=
  is.foldl (fun m i => exec callee i m) m

variable {callee : Machine R S → Machine R S}

@[simp] theorem run_nil (m : Machine R S) : run callee [] m = m := rfl

theorem run_cons (i : Instr R S) (is : List (Instr R S)) (m : Machine R S) :
    run callee (i :: is) m = run callee is (exec callee i m) := rfl

theorem run_append (is js : List (Instr R S)) (m : Machine R S) :
    run callee (is ++ js) m = run callee js (run callee is m) := List.foldl_append

end Machine

/-! ## The list view -/

/-- The same with the stack as a list, and room for so many more quadwords below it; `lo` is where the room ends. -/
structure StackView (R S : Type) where
  reg : R → BitVec 64
  special : S → BitVec 64
  lo : Nat
  room : Nat
  stack : List (BitVec 64)
  mem : Mem

namespace StackView

/-- Where the stack begins. -/
def hi (v : StackView R S) : Nat := v.lo + 8 * (v.room + v.stack.length)

/-- `push`, as long as there is room. -/
def push (x : BitVec 64) (v : StackView R S) : Option (StackView R S) :=
  match v.room with
  | 0 => none
  | room + 1 => some { v with room, stack := x :: v.stack }

/-- The top of the stack, and what is below it. -/
def pop (v : StackView R S) : Option (BitVec 64 × StackView R S) :=
  match v.stack with
  | [] => none
  | x :: stack => some (x, { v with room := v.room + 1, stack })

/-- A quadword outside the window. -/
def read (a : Nat) (v : StackView R S) : Option (BitVec 64) :=
  if a + 8 ≤ v.lo ∨ v.hi ≤ a then some (v.mem.load64 a) else none

theorem read_eq_some {a : Nat} {v : StackView R S} (h : a + 8 ≤ v.lo ∨ v.hi ≤ a) :
    v.read a = some (v.mem.load64 a) :=
  if_pos h

variable [DecidableEq R] [DecidableEq S]

/-- `mov r, x`. -/
def set (r : R) (x : BitVec 64) (v : StackView R S) : StackView R S := { v with reg := Function.update v.reg r x }

/-- One instruction that stays in the window and calls nothing. -/
def exec : Instr R S → StackView R S → Option (StackView R S)
  | .push r, v => v.push (v.reg r)
  | .pushImm x, v => v.push x
  | .pushMem a, v => (v.read (a.addr v.reg v.special)).bind v.push
  | .pop r, v => v.pop.map fun p => p.2.set r p.1
  | .mov d s, v => some (v.set d (v.reg s))
  | .movSpecial d s, v => some (v.set d (v.special s))
  | .load d a, v => (v.read (a.addr v.reg v.special)).map (v.set d)
  | .leaRsp d, v => some (v.set d (BitVec.ofNat 64 (v.lo + 8 * v.room)))
  | .addRsp n, v =>
    if n % 8 = 0 ∧ n / 8 ≤ v.stack.length then
      some { v with room := v.room + n / 8, stack := v.stack.drop (n / 8) }
    else none
  | .exchange s t, v => some { v with special := v.special ∘ Equiv.swap s t }
  | .popRsp, _ | .loadRsp _, _ | .storeRsp _, _ | .call, _ => none

theorem exec_pushMem {a : Operand R S} {v : StackView R S} {x : BitVec 64}
    (h : v.read (a.addr v.reg v.special) = some x) : exec (.pushMem a) v = v.push x := by
  simp only [exec, h, Option.bind_some]

theorem exec_load {a : Operand R S} {v : StackView R S} {x : BitVec 64} (d : R)
    (h : v.read (a.addr v.reg v.special) = some x) : exec (.load d a) v = some (v.set d x) := by
  simp only [exec, h, Option.map_some]

/-- A program that stays in the window and calls nothing. -/
def run (is : List (Instr R S)) (v : StackView R S) : Option (StackView R S) :=
  is.foldlM (fun v i => exec i v) v

@[simp] theorem run_nil (v : StackView R S) : run [] v = some v := rfl

theorem run_cons (i : Instr R S) (is : List (Instr R S)) (v : StackView R S) :
    run (i :: is) v = (exec i v).bind (run is) := rfl

theorem run_singleton (i : Instr R S) (v : StackView R S) : run [i] v = exec i v := by
  rw [run_cons]
  exact Option.bind_fun_some _

theorem run_append {is js : List (Instr R S)} {v w : StackView R S} (h : run is v = some w) :
    run (is ++ js) v = run js w := by
  unfold run at h ⊢
  rw [List.foldlM_append, h]
  rfl

end StackView

/-- What a program calls does not matter where the list view runs it. -/
theorem StackView.run_callee [DecidableEq R] [DecidableEq S] {is : List (Instr R S)} {v v' : StackView R S}
    (h : v.run is = some v') (f g : Machine R S → Machine R S) (m : Machine R S) : m.run f is = m.run g is := by
  induction is generalizing v m with
  | nil => rfl
  | cons i is ih =>
    obtain ⟨w, hw, h⟩ := Option.bind_eq_some_iff.1 h
    rw [Machine.run_cons, Machine.run_cons]
    have hexec : m.exec f i = m.exec g i := by
      cases i with
      | call => cases hw
      | _ => rfl
    rw [hexec]
    exact ih h _

/-! ## What a machine shows -/

/-- The machine with a byte memory is the one with the list. -/
structure Machine.Shows (m : Machine R S) (v : StackView R S) : Prop where
  reg : m.reg = v.reg
  special : m.special = v.special
  rsp : m.rsp.toNat = v.lo + 8 * v.room
  fits : v.hi < 2 ^ 64
  stack : ∀ i (hi : i < v.stack.length), m.mem.load64 (v.lo + 8 * (v.room + i)) = v.stack[i]
  mem : ∀ x, x < v.lo ∨ v.hi ≤ x → m.mem x = v.mem x

/-- The function comes back with the stack pointer and with the `n` quadwords of the stack it was called with. -/
structure Machine.KeepsStack (callee : Machine R S → Machine R S) (n : Nat) (m : Machine R S) : Prop where
  rsp : (callee m).rsp = m.rsp
  mem : ∀ x, m.rsp.toNat ≤ x → x < m.rsp.toNat + 8 * n → (callee m).mem x = m.mem x

namespace Machine.Shows

variable {m : Machine R S} {v v' : StackView R S}

/-- The view of a machine that has pushed nothing yet. -/
theorem initial {n : Nat} (hn : 8 * n ≤ m.rsp.toNat) :
    m.Shows ⟨m.reg, m.special, m.rsp.toNat - 8 * n, n, [], m.mem⟩ where
  reg := rfl
  special := rfl
  rsp := by dsimp only; omega
  fits := by
    have := m.rsp.isLt
    simp only [StackView.hi, List.length_nil]
    omega
  stack i hi := absurd hi (Nat.not_lt_zero i)
  mem _ _ := rfl

theorem push (h : m.Shows v) {x : BitVec 64} (hv : v.push x = some v') : (m.push x).Shows v' := by
  cases hroom : v.room with
  | zero => simp [StackView.push, hroom] at hv
  | succ room =>
    simp only [StackView.push, hroom, Option.some.injEq] at hv
    subst hv
    have hrsp := h.rsp
    have hfits := h.fits
    rw [hroom] at hrsp
    simp only [StackView.hi, hroom] at hfits
    have hnew : (m.rsp - 8).toNat = v.lo + 8 * room := by bv_omega
    refine ⟨h.reg, h.special, hnew, ?_, fun i hi => ?_, fun a ha => ?_⟩
    · simp only [StackView.hi, List.length_cons]
      omega
    · simp only [Machine.push, hnew]
      cases i with
      | zero => exact Mem.load64_store64_same ..
      | succ i =>
        rw [Mem.load64_store64_disjoint _ (by omega)]
        have := h.stack i (Nat.lt_of_succ_lt_succ hi)
        rw [hroom] at this
        simpa [show room + (i + 1) = room + 1 + i by omega] using this
    · simp only [StackView.hi, List.length_cons] at ha
      simp only [Machine.push, hnew]
      rw [Mem.store64, Mem.store_of_lt (by omega)]
      exact h.mem a (by simp only [StackView.hi, hroom]; omega)

theorem pop (h : m.Shows v) {x : BitVec 64} (hv : v.pop = some (x, v')) : m.top = x ∧ m.drop.Shows v' := by
  cases hstack : v.stack with
  | nil => simp [StackView.pop, hstack] at hv
  | cons y stack =>
    simp only [StackView.pop, hstack, Option.some.injEq, Prod.mk.injEq] at hv
    obtain ⟨rfl, rfl⟩ := hv
    have hrsp := h.rsp
    have hfits := h.fits
    simp only [StackView.hi, hstack, List.length_cons] at hfits
    have htop := h.stack 0 (by simp [hstack])
    refine ⟨?_, h.reg, h.special, ?_, ?_, fun i hi => ?_, fun a ha => h.mem a ?_⟩
    · simpa [top, hrsp, hstack] using htop
    · simp only [Machine.drop]
      bv_omega
    · simp only [StackView.hi]
      omega
    · have := h.stack (i + 1) (by rw [hstack]; exact Nat.succ_lt_succ hi)
      simpa [Machine.drop, hstack, show v.room + (i + 1) = v.room + 1 + i by omega] using this
    · simp only [StackView.hi, hstack, List.length_cons] at ha ⊢
      omega

theorem read (h : m.Shows v) {a : Nat} {x : BitVec 64} (hv : v.read a = some x) : m.mem.load64 a = x := by
  unfold StackView.read at hv
  split_ifs at hv with hout
  cases hv
  exact Mem.load_congr fun y h₁ h₂ => h.mem y (by omega)

/-- A function that keeps the stack leaves what the list shows. -/
theorem call (h : m.Shows v) {callee : Machine R S → Machine R S}
    (hkeeps : KeepsStack callee v.stack.length m) :
    (callee m).Shows { v with reg := (callee m).reg, special := (callee m).special, mem := (callee m).mem } where
  reg := rfl
  special := rfl
  rsp := by rw [hkeeps.rsp, h.rsp]
  fits := h.fits
  stack i hi := by
    rw [← h.stack i hi]
    dsimp only at hi ⊢
    refine Mem.load_congr fun x h₁ h₂ => hkeeps.mem x ?_ ?_
    · rw [h.rsp]
      omega
    · rw [h.rsp]
      omega
  mem _ _ := rfl

variable [DecidableEq R]

theorem set (h : m.Shows v) (r : R) (x : BitVec 64) : (m.set r x).Shows (v.set r x) := by
  refine ⟨?_, h.special, h.rsp, h.fits, h.stack, h.mem⟩
  simp only [Machine.set, StackView.set, h.reg]

variable [DecidableEq S]

/-- What the list view does in one instruction, the machine does. -/
theorem exec (h : m.Shows v) (callee : Machine R S → Machine R S) {i : Instr R S} (hv : v.exec i = some v') :
    (m.exec callee i).Shows v' := by
  cases i with
  | push r =>
    simp only [Machine.exec]
    rw [h.reg]
    exact h.push hv
  | pushImm x => exact h.push hv
  | pushMem a =>
    obtain ⟨x, hx, hv⟩ := Option.bind_eq_some_iff.1 hv
    simp only [Machine.exec]
    rw [h.reg, h.special, h.read hx]
    exact h.push hv
  | pop r =>
    obtain ⟨⟨x, w⟩, hx, hv⟩ := Option.map_eq_some_iff.1 hv
    obtain ⟨htop, hdrop⟩ := h.pop hx
    subst hv
    simp only [Machine.exec]
    rw [htop]
    exact hdrop.set r x
  | mov d s =>
    cases hv
    simp only [Machine.exec]
    rw [h.reg]
    exact h.set ..
  | movSpecial d s =>
    cases hv
    simp only [Machine.exec]
    rw [h.special]
    exact h.set ..
  | load d a =>
    obtain ⟨x, hx, hv⟩ := Option.map_eq_some_iff.1 hv
    subst hv
    simp only [Machine.exec]
    rw [h.reg, h.special, h.read hx]
    exact h.set ..
  | leaRsp d =>
    cases hv
    simp only [Machine.exec]
    rw [← h.rsp, BitVec.ofNat_toNat, BitVec.setWidth_eq]
    exact h.set ..
  | addRsp n =>
    simp only [StackView.exec] at hv
    split_ifs at hv with hn
    cases hv
    have hrsp := h.rsp
    have hfits := h.fits
    simp only [StackView.hi] at hfits
    have hnew : (m.rsp + BitVec.ofNat 64 n).toNat = v.lo + 8 * (v.room + n / 8) := by
      rw [BitVec.toNat_add, BitVec.toNat_ofNat, hrsp]
      omega
    refine ⟨h.reg, h.special, hnew, ?_, fun i hi => ?_, fun a ha => h.mem a ?_⟩
    · simp only [StackView.hi, List.length_drop]
      omega
    · rw [List.length_drop] at hi
      have := h.stack (n / 8 + i) (by omega)
      simpa [Machine.exec, show v.room + (n / 8 + i) = v.room + n / 8 + i by omega] using this
    · simp only [StackView.hi, List.length_drop] at ha ⊢
      omega
  | exchange s t =>
    cases hv
    exact ⟨h.reg, congrArg (· ∘ Equiv.swap s t) h.special, h.rsp, h.fits, h.stack, h.mem⟩
  | popRsp => cases hv
  | loadRsp a => cases hv
  | storeRsp a => cases hv
  | call => cases hv

/-- What the list view does in a program, the machine does. -/
theorem run (h : m.Shows v) (callee : Machine R S → Machine R S) {is : List (Instr R S)}
    (hv : v.run is = some v') : (m.run callee is).Shows v' := by
  induction is generalizing m v with
  | nil =>
    cases hv
    exact h
  | cons i is ih =>
    obtain ⟨w, hw, hv⟩ := Option.bind_eq_some_iff.1 hv
    rw [run_cons]
    exact ih (h.exec callee hw) hv

end Machine.Shows

end

end Icarus.Base
