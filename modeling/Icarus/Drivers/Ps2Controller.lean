/-
The PS/2 controller (PS2_Controller.c): the conversation of `ps2_controller_init` with it, in which nothing is written or
read before the controller has shown itself ready, nothing is waited for forever, and nothing is reported that it has not
said.
-/
import Icarus.Base.Dialogue

namespace Icarus.Drivers

open Icarus.Base

/-! ## The code -/

/-- An access to a port. -/
inductive PortOp
  | inb (port : Nat)
  | outb (port : Nat) (v : BitVec 8)
  deriving DecidableEq, Repr

/-- What comes back. -/
abbrev PortOp.Ans : PortOp → Type
  | inb _ => BitVec 8
  | outb .. => Unit

/-- A function that uses ports. -/
abbrev PortIo := Dialogue PortOp PortOp.Ans

/-- `inportb`. -/
def inportb (port : Nat) : PortIo (BitVec 8) := .ask (.inb port) .done

/-- `outportb`. -/
def outportb (port : Nat) (v : BitVec 8) : PortIo Unit := .ask (.outb port v) .done

/-- `PS2_DATA_PORT`. -/
def ps2DataPort : Nat := 0x60

/-- `PS2_STATUS_REG`. -/
def ps2StatusReg : Nat := 0x64

/-- `PS2_COMMAND_REGISTER`. -/
def ps2CommandRegister : Nat := 0x64

/-- `PS2_STATUS_OUT_BUFF`. -/
def ps2StatusOutBuff : Nat := 0

/-- `PS2_STATUS_IN_BUFF`. -/
def ps2StatusInBuff : Nat := 1

/-- `PS2_TIMEOUT`. -/
@[irreducible] def ps2Timeout : Nat := 100000

/-- The loops that wait for a byte and read it, with the rounds that are left; -1 when there are none. -/
def pollRead : (rounds : Nat) → PortIo Int
  | 0 => pure (-1)
  | rounds + 1 => do
    let status ← inportb ps2StatusReg
    if status.getLsbD ps2StatusOutBuff then
      let v ← inportb ps2DataPort
      return (v.toNat : Int)
    else pollRead rounds

/-- The loops that wait until a byte can be written and write it. -/
def pollWrite (b : BitVec 8) : (rounds : Nat) → PortIo Int
  | 0 => pure (-1)
  | rounds + 1 => do
    let status ← inportb ps2StatusReg
    if status.getLsbD ps2StatusInBuff then pollWrite b rounds
    else
      outportb ps2DataPort b
      return 0

/-- `write_ps2_bcommand`. -/
def writePs2Bcommand (command : BitVec 8) : PortIo Unit := outportb ps2CommandRegister command

/-- `write_ps2_bcommand_ret`. -/
def writePs2BcommandRet (command : BitVec 8) : PortIo Int := do
  outportb ps2CommandRegister command
  pollRead ps2Timeout

/-- `write_ps2_2bcommand`. -/
def writePs22bcommand (command : BitVec 16) : PortIo Int := do
  outportb ps2CommandRegister (command.setWidth 8)
  pollWrite ((command >>> 8).setWidth 8) ps2Timeout

/-- `flush_out_buff`. -/
def flushOutBuff : PortIo Unit := do
  let _ ← inportb ps2DataPort
  return ()

/-- `ps2_read_timeout`. -/
def ps2ReadTimeout : PortIo Int := pollRead ps2Timeout

/-- `ps2_write_timeout`. -/
def ps2WriteTimeout (b : BitVec 8) : PortIo Int := pollWrite b ps2Timeout

/-- `ps2_send_dev`. -/
def ps2SendDev (port : Nat) (b : BitVec 8) : PortIo Int := do
  (if port = 2 then writePs2Bcommand 0xD4 else pure ())
  ps2WriteTimeout b

/-- What `ps2_reset_dev` makes of the answers to the reset. -/
def ps2ResetAnswers : PortIo Int := do
  let r1 ← ps2ReadTimeout
  if r1 < 0 then return -2
  else if r1 = 0xFC then return -1
  else
    let r2 ← ps2ReadTimeout
    if r2 < 0 then return -2
    else if ¬((r1 = 0xFA ∧ r2 = 0xAA) ∨ (r1 = 0xAA ∧ r2 = 0xFA)) then return -1
    else
      let _ ← ps2ReadTimeout
      return 0

/-- `ps2_reset_dev`. -/
def ps2ResetDev (port : Nat) : PortIo Int := do
  let sent ← ps2SendDev port 0xFF
  if sent < 0 then return -2 else ps2ResetAnswers

/-- `PS2_info_t`, with `present` for `exists`. -/
structure Ps2Info where
  present : Bool
  enabled : Bool
  isDualChannel : Bool
  config : BitVec 8
  deriving DecidableEq, Repr

/-- The command that writes the configuration byte. -/
def configCommand (conf : BitVec 8) : BitVec 16 := 0x60#16 ||| conf.setWidth 16 <<< 8

/-- `ps2_controller_init` up to the self test, with the ports off; the configuration byte it is left with, or nothing when
the test fails. -/
def ps2SelfTest : PortIo (Option (BitVec 8)) := do
  writePs2Bcommand 0xAD
  writePs2Bcommand 0xA7
  flushOutBuff
  let conf ← writePs2BcommandRet 0x20
  let conf := BitVec.ofInt 8 conf &&& ~~~(1#8 ||| 1#8 <<< 4 ||| 1#8 <<< 6)
  let _ ← writePs22bcommand (configCommand conf)
  let answer ← writePs2BcommandRet 0xAA
  if answer ≠ 0x55 then return none
  else
    let _ ← writePs22bcommand (configCommand conf)
    return some conf

/-- The check for a second channel. -/
def ps2CheckDual : PortIo (Bool × BitVec 8) := do
  writePs2Bcommand 0xA8
  let conf ← writePs2BcommandRet 0x20
  let conf := BitVec.ofInt 8 conf
  if conf &&& 1#8 <<< 5 = 0 then
    writePs2Bcommand 0xA7
    let conf := conf &&& ~~~(1#8 ||| 1#8 <<< 1 ||| 1#8 <<< 5)
    let _ ← writePs22bcommand (configCommand conf)
    return (true, conf)
  else return (false, conf)

/-- The tests of the interfaces. -/
def ps2TestPorts (dual : Bool) : PortIo (Bool × Bool) := do
  let r1 ← writePs2BcommandRet 0xAB
  if dual then
    let r2 ← writePs2BcommandRet 0xA9
    return (decide (r1 = 0), decide (r2 = 0))
  else return (decide (r1 = 0), false)

/-- The working ports and their interrupts are switched on. -/
def ps2EnablePorts (conf : BitVec 8) (port1 port2 : Bool) : PortIo (BitVec 8) := do
  (if port1 then writePs2Bcommand 0xAE else pure ())
  (if port2 then writePs2Bcommand 0xA8 else pure ())
  let conf := if port1 then conf ||| 1#8 else conf
  let conf := if port2 then conf ||| 1#8 <<< 1 else conf
  let _ ← writePs22bcommand (configCommand conf)
  return conf

/-- The devices are reset; what comes of it is not used. -/
def ps2ResetDevs (port1 port2 : Bool) : PortIo Unit := do
  let _ ← (if port1 then ps2ResetDev 1 else pure 0)
  let _ ← (if port2 then ps2ResetDev 2 else pure 0)
  return ()

/-- `ps2_controller_init`, with what is in `ps2_info`. -/
def ps2ControllerInit (info : Ps2Info) : PortIo (Int × Ps2Info) := do
  let conf ← ps2SelfTest
  match conf with
  | none => return (-1, info)
  | some _ =>
    let (dual, conf) ← ps2CheckDual
    let (port1, port2) ← ps2TestPorts dual
    if !port1 && !port2 then return (-1, info)
    else
      let conf ← ps2EnablePorts conf port1 port2
      flushOutBuff
      ps2ResetDevs port1 port2
      return (0, { present := true, enabled := true, isDualChannel := dual, config := conf })

/-! ## What may be written and read -/

/-- An access with what came back. -/
abbrev PortEvent := Exchange PortOp PortOp.Ans

namespace PortEvent

/-- Writes to the data port. -/
def isDataWrite : PortEvent → Bool
  | ⟨.outb port _, _⟩ => port == ps2DataPort
  | ⟨.inb _, _⟩ => false

/-- Reads of the data port. -/
def isDataRead : PortEvent → Bool
  | ⟨.inb port, _⟩ => port == ps2DataPort
  | ⟨.outb .., _⟩ => false

/-- The status that says a byte can be written. -/
def showsRoom : PortEvent → Bool
  | ⟨.inb port, status⟩ => port == ps2StatusReg && !BitVec.getLsbD status ps2StatusInBuff
  | ⟨.outb .., _⟩ => false

/-- The status that says a byte can be read. -/
def showsByte : PortEvent → Bool
  | ⟨.inb port, status⟩ => port == ps2StatusReg && BitVec.getLsbD status ps2StatusOutBuff
  | ⟨.outb .., _⟩ => false

/-- The port of an access. -/
def port : PortEvent → Nat
  | ⟨.inb port, _⟩ => port
  | ⟨.outb port _, _⟩ => port

end PortEvent

open PortEvent

/-- No byte is written but right behind a status that says there is room, and none is read but right behind one that says
there is one, up to so many; no other port is used, and there are at most `n` accesses. -/
structure Disciplined (flushes n : Nat) (es : List PortEvent) : Prop where
  writes : unguarded isDataWrite showsRoom false es = 0
  reads : unguarded isDataRead showsByte false es ≤ flushes
  ports : ∀ e ∈ es, e.port = ps2DataPort ∨ e.port = ps2StatusReg
  length : es.length ≤ n

/-- A function that keeps to that whatever it is answered. -/
def Speaks {α : Type} (flushes n : Nat) (x : PortIo α) : Prop := ∀ es a, Dialogue.Talk x es a → Disciplined flushes n es

section
variable {α β : Type} {x : PortIo α} {f : α → PortIo β} {k k' n n' : Nat} {es es' : List PortEvent}

theorem Disciplined.append (h : Disciplined k n es) (h' : Disciplined k' n' es') :
    Disciplined (k + k') (n + n') (es ++ es') := by
  refine ⟨?_, ?_, fun e he => ?_, ?_⟩
  · have hle : unguarded isDataWrite showsRoom false (es ++ es') ≤ _ := unguarded_append false es es'
    rw [h.writes, h'.writes] at hle
    exact Nat.le_zero.1 hle
  · have hle : unguarded isDataRead showsByte false (es ++ es') ≤ _ := unguarded_append false es es'
    exact hle.trans (Nat.add_le_add h.reads h'.reads)
  · exact (List.mem_append.1 he).elim (h.ports e) (h'.ports e)
  · rw [List.length_append]
    exact Nat.add_le_add h.length h'.length

theorem Speaks.bind (hx : Speaks k n x) (hf : ∀ a, Speaks k' n' (f a)) : Speaks (k + k') (n + n') (x >>= f) := by
  intro es b h
  obtain ⟨es₁, a, es₂, rfl, h₁, h₂⟩ := Dialogue.talk_bind.1 h
  exact (hx es₁ a h₁).append (hf a es₂ b h₂)

theorem Speaks.pure (k n : Nat) (a : α) : Speaks k n (Pure.pure a) := by
  intro es a' h
  obtain ⟨rfl, -⟩ := Dialogue.talk_pure.1 h
  exact ⟨rfl, Nat.zero_le k, fun e he => (nomatch he), Nat.zero_le n⟩

theorem Disciplined.weaken (h : Disciplined k n es) (hk : k ≤ k') (hn : n ≤ n') : Disciplined k' n' es :=
  ⟨h.writes, h.reads.trans hk, h.ports, h.length.trans hn⟩

theorem Speaks.weaken (h : Speaks k n x) (hk : k ≤ k') (hn : n ≤ n') : Speaks k' n' x :=
  fun es a htalk => (h es a htalk).weaken hk hn

theorem outportb_speaks (v : BitVec 8) : Speaks 0 1 (outportb ps2CommandRegister v) := by
  intro es a h
  obtain rfl := Dialogue.talk_once.1 h
  exact ⟨rfl, le_rfl, List.forall_mem_singleton.2 (.inr rfl), le_rfl⟩

theorem flushOutBuff_speaks : Speaks 1 1 flushOutBuff := by
  intro es a h
  obtain ⟨es₁, v, es₂, rfl, h₁, h₂⟩ := Dialogue.talk_bind.1 h
  obtain rfl := Dialogue.talk_once.1 h₁
  obtain ⟨rfl, -⟩ := Dialogue.talk_pure.1 h₂
  exact ⟨rfl, le_rfl, List.forall_mem_singleton.2 (.inl rfl), le_rfl⟩

/-- What the waiting loop for a byte has said: it has given up, or the last status showed the byte it then read. -/
theorem pollRead_talk : ∀ {n : Nat} {es : List PortEvent} {r : Int}, Dialogue.Talk (pollRead n) es r →
    ∃ polls : List (BitVec 8), polls.length ≤ n ∧ (∀ st ∈ polls, st.getLsbD ps2StatusOutBuff = false) ∧
      (r = -1 ∧ es = polls.map (fun st => ⟨.inb ps2StatusReg, st⟩) ∨
        ∃ st v : BitVec 8, polls.length < n ∧ st.getLsbD ps2StatusOutBuff = true ∧ r = v.toNat ∧
          es = polls.map (fun st => ⟨.inb ps2StatusReg, st⟩) ++ [⟨.inb ps2StatusReg, st⟩, ⟨.inb ps2DataPort, v⟩])
  | 0, es, r, h => by
    obtain ⟨rfl, rfl⟩ := Dialogue.talk_pure.1 h
    exact ⟨[], le_rfl, by simp, .inl ⟨rfl, rfl⟩⟩
  | n + 1, es, r, h => by
    unfold pollRead at h
    obtain ⟨es₁, st, es₂, rfl, h₁, h₂⟩ := Dialogue.talk_bind.1 h
    obtain rfl := Dialogue.talk_once.1 h₁
    cases hst : st.getLsbD ps2StatusOutBuff with
    | true =>
      rw [if_pos hst] at h₂
      obtain ⟨es₃, v, es₄, rfl, h₃, h₄⟩ := Dialogue.talk_bind.1 h₂
      obtain rfl := Dialogue.talk_once.1 h₃
      obtain ⟨rfl, rfl⟩ := Dialogue.talk_pure.1 h₄
      exact ⟨[], Nat.zero_le _, by simp, .inr ⟨st, v, Nat.succ_pos n, hst, rfl, rfl⟩⟩
    | false =>
      rw [if_neg (by rw [hst]; decide)] at h₂
      obtain ⟨polls, hlen, hpolls, hcase⟩ := pollRead_talk h₂
      refine ⟨st :: polls, Nat.succ_le_succ hlen, by simpa [hst] using hpolls, ?_⟩
      rcases hcase with ⟨rfl, rfl⟩ | ⟨st', v, hlt, hst', rfl, rfl⟩
      · exact .inl ⟨rfl, rfl⟩
      · exact .inr ⟨st', v, Nat.succ_lt_succ hlt, hst', rfl, rfl⟩

/-- The same of the loop that waits for room. -/
theorem pollWrite_talk {b : BitVec 8} : ∀ {n : Nat} {es : List PortEvent} {r : Int}, Dialogue.Talk (pollWrite b n) es r →
    ∃ polls : List (BitVec 8), polls.length ≤ n ∧
      (r = -1 ∧ es = polls.map (fun st => ⟨.inb ps2StatusReg, st⟩) ∨
        ∃ (st : BitVec 8) (u : Unit), polls.length < n ∧ st.getLsbD ps2StatusInBuff = false ∧ r = 0 ∧
          es = polls.map (fun st => ⟨.inb ps2StatusReg, st⟩) ++ [⟨.inb ps2StatusReg, st⟩, ⟨.outb ps2DataPort b, u⟩])
  | 0, es, r, h => by
    obtain ⟨rfl, rfl⟩ := Dialogue.talk_pure.1 h
    exact ⟨[], le_rfl, .inl ⟨rfl, rfl⟩⟩
  | n + 1, es, r, h => by
    unfold pollWrite at h
    obtain ⟨es₁, st, es₂, rfl, h₁, h₂⟩ := Dialogue.talk_bind.1 h
    obtain rfl := Dialogue.talk_once.1 h₁
    cases hst : st.getLsbD ps2StatusInBuff with
    | false =>
      rw [if_neg (by rw [hst]; decide)] at h₂
      obtain ⟨es₃, u, es₄, rfl, h₃, h₄⟩ := Dialogue.talk_bind.1 h₂
      obtain rfl := Dialogue.talk_once.1 h₃
      obtain ⟨rfl, rfl⟩ := Dialogue.talk_pure.1 h₄
      exact ⟨[], Nat.zero_le _, .inr ⟨st, u, Nat.succ_pos n, hst, rfl, rfl⟩⟩
    | true =>
      rw [if_pos hst] at h₂
      obtain ⟨polls, hlen, hcase⟩ := pollWrite_talk h₂
      refine ⟨st :: polls, Nat.succ_le_succ hlen, ?_⟩
      rcases hcase with ⟨rfl, rfl⟩ | ⟨st', u, hlt, hst', rfl, rfl⟩
      · exact .inl ⟨rfl, rfl⟩
      · exact .inr ⟨st', u, Nat.succ_lt_succ hlt, hst', rfl, rfl⟩

/-- Reading the status is always in order. -/
theorem polls_disciplined (polls : List (BitVec 8)) :
    Disciplined 0 polls.length (polls.map fun st => (⟨.inb ps2StatusReg, st⟩ : PortEvent)) := by
  have hmem : ∀ e ∈ polls.map fun st => (⟨.inb ps2StatusReg, st⟩ : PortEvent), ∃ st, e = ⟨.inb ps2StatusReg, st⟩ := by
    intro e he
    obtain ⟨st, -, rfl⟩ := List.mem_map.1 he
    exact ⟨st, rfl⟩
  refine ⟨unguarded_eq_zero (fun e he => ?_) false, (unguarded_eq_zero (fun e he => ?_) false).le, fun e he => ?_, ?_⟩
  · obtain ⟨st, rfl⟩ := hmem e he
    rfl
  · obtain ⟨st, rfl⟩ := hmem e he
    rfl
  · obtain ⟨st, rfl⟩ := hmem e he
    exact .inr rfl
  · rw [List.length_map]

theorem pollRead_speaks (n : Nat) : Speaks 0 (n + 1) (pollRead n) := by
  intro es r h
  obtain ⟨polls, hlen, -, ⟨-, rfl⟩ | ⟨st, v, hlt, hst, -, rfl⟩⟩ := pollRead_talk h
  · exact (polls_disciplined polls).weaken le_rfl (by omega)
  · have hlast : Disciplined 0 2 ([⟨.inb ps2StatusReg, st⟩, ⟨.inb ps2DataPort, v⟩] : List PortEvent) := by
      refine ⟨rfl, ?_, ?_, le_rfl⟩
      · simp [unguarded, isDataRead, showsByte, hst, ps2DataPort, ps2StatusReg]
      · simp [port]
    exact ((polls_disciplined polls).append hlast).weaken le_rfl (by omega)

theorem pollWrite_speaks (b : BitVec 8) (n : Nat) : Speaks 0 (n + 1) (pollWrite b n) := by
  intro es r h
  obtain ⟨polls, hlen, ⟨-, rfl⟩ | ⟨st, u, hlt, hst, -, rfl⟩⟩ := pollWrite_talk h
  · exact (polls_disciplined polls).weaken le_rfl (by omega)
  · have hlast : Disciplined 0 2 ([⟨.inb ps2StatusReg, st⟩, ⟨.outb ps2DataPort b, u⟩] : List PortEvent) := by
      refine ⟨?_, le_rfl, ?_, le_rfl⟩
      · simp [unguarded, isDataWrite, showsRoom, hst]
      · simp [port]
    exact ((polls_disciplined polls).append hlast).weaken le_rfl (by omega)

/-! ### The functions -/

theorem writePs2BcommandRet_speaks (c : BitVec 8) : Speaks 0 (ps2Timeout + 2) (writePs2BcommandRet c) :=
  ((outportb_speaks c).bind fun _ => pollRead_speaks ps2Timeout).weaken le_rfl (by omega)

theorem writePs22bcommand_speaks (c : BitVec 16) : Speaks 0 (ps2Timeout + 2) (writePs22bcommand c) :=
  ((outportb_speaks _).bind fun _ => pollWrite_speaks _ ps2Timeout).weaken le_rfl (by omega)

theorem ps2ResetDev_speaks (port : Nat) : Speaks 0 (4 * ps2Timeout + 5) (ps2ResetDev port) := by
  have hsend : Speaks 0 (ps2Timeout + 2) (ps2SendDev port 0xFF) := by
    have hfirst : Speaks 0 1 (if port = 2 then writePs2Bcommand 0xD4 else pure ()) := by
      split_ifs
      · exact outportb_speaks 0xD4
      · exact Speaks.pure _ _ _
    exact (hfirst.bind fun _ => pollWrite_speaks _ ps2Timeout).weaken le_rfl (by omega)
  have hanswers : Speaks 0 (3 * ps2Timeout + 3) ps2ResetAnswers := by
    have hread : Speaks 0 (ps2Timeout + 1) ps2ReadTimeout := pollRead_speaks ps2Timeout
    unfold ps2ResetAnswers
    refine (hread.bind fun r1 => (?_ : Speaks 0 (2 * ps2Timeout + 2) _)).weaken le_rfl (by omega)
    split_ifs
    · exact Speaks.pure _ _ _
    · exact Speaks.pure _ _ _
    refine (hread.bind fun r2 => (?_ : Speaks 0 (ps2Timeout + 1) _)).weaken le_rfl (by omega)
    split_ifs
    · exact Speaks.pure _ _ _
    · exact (hread.bind fun _ => Speaks.pure 0 0 _).weaken le_rfl (by omega)
    · exact Speaks.pure _ _ _
  unfold ps2ResetDev
  refine (hsend.bind fun sent => (?_ : Speaks 0 (3 * ps2Timeout + 3) _)).weaken le_rfl (by omega)
  split_ifs
  · exact Speaks.pure _ _ _
  · exact hanswers

theorem ps2SelfTest_speaks : Speaks 1 (4 * ps2Timeout + 11) ps2SelfTest := by
  have hend : ∀ (conf : BitVec 8) (answer : Int), Speaks 0 (ps2Timeout + 2)
      (if answer ≠ 0x55 then (pure none : PortIo (Option (BitVec 8)))
        else do
          let _ ← writePs22bcommand (configCommand conf)
          return some conf) := by
    intro conf answer
    split_ifs
    · exact Speaks.pure _ _ _
    · exact ((writePs22bcommand_speaks _).bind fun _ => Speaks.pure 0 0 _).weaken le_rfl (by omega)
  unfold ps2SelfTest
  refine ((outportb_speaks 0xAD).bind fun _ => (outportb_speaks 0xA7).bind fun _ => flushOutBuff_speaks.bind fun _ =>
    (writePs2BcommandRet_speaks 0x20).bind fun conf => (?_ : Speaks 0 (3 * ps2Timeout + 6) _)).weaken (by omega) (by omega)
  exact ((writePs22bcommand_speaks _).bind fun _ => (writePs2BcommandRet_speaks 0xAA).bind (hend _)).weaken (by omega)
    (by omega)

theorem ps2CheckDual_speaks : Speaks 0 (2 * ps2Timeout + 6) ps2CheckDual := by
  unfold ps2CheckDual
  refine ((outportb_speaks 0xA8).bind fun _ => (writePs2BcommandRet_speaks 0x20).bind fun conf =>
    (?_ : Speaks 0 (ps2Timeout + 3) _)).weaken (by omega) (by omega)
  dsimp only
  split_ifs
  · exact ((outportb_speaks 0xA7).bind fun _ => (writePs22bcommand_speaks _).bind fun _ => Speaks.pure 0 0 _).weaken
      (by omega) (by omega)
  · exact Speaks.pure _ _ _

theorem ps2TestPorts_speaks (dual : Bool) : Speaks 0 (2 * ps2Timeout + 4) (ps2TestPorts dual) := by
  unfold ps2TestPorts
  refine ((writePs2BcommandRet_speaks 0xAB).bind fun r1 => (?_ : Speaks 0 (ps2Timeout + 2) _)).weaken (by omega) (by omega)
  split_ifs
  · exact ((writePs2BcommandRet_speaks 0xA9).bind fun _ => Speaks.pure 0 0 _).weaken (by omega) (by omega)
  · exact Speaks.pure _ _ _

theorem ps2EnablePorts_speaks (conf : BitVec 8) (port1 port2 : Bool) :
    Speaks 0 (ps2Timeout + 4) (ps2EnablePorts conf port1 port2) := by
  have hport : ∀ (ok : Bool) (c : BitVec 8), Speaks 0 1 (if ok then writePs2Bcommand c else pure ()) := by
    intro ok c
    split_ifs
    · exact outportb_speaks c
    · exact Speaks.pure _ _ _
  unfold ps2EnablePorts
  refine ((hport port1 0xAE).bind fun _ => (hport port2 0xA8).bind fun _ =>
    (?_ : Speaks 0 (ps2Timeout + 2) _)).weaken (by omega) (by omega)
  exact ((writePs22bcommand_speaks _).bind fun _ => Speaks.pure 0 0 _).weaken (by omega) (by omega)

theorem ps2ResetDevs_speaks (port1 port2 : Bool) : Speaks 0 (8 * ps2Timeout + 10) (ps2ResetDevs port1 port2) := by
  have hport : ∀ (ok : Bool) (port : Nat), Speaks 0 (4 * ps2Timeout + 5) (if ok then ps2ResetDev port else pure 0) := by
    intro ok port
    split_ifs
    · exact ps2ResetDev_speaks port
    · exact Speaks.pure _ _ _
  unfold ps2ResetDevs
  exact ((hport port1 1).bind fun _ => (hport port2 2).bind fun _ => Speaks.pure 0 0 _).weaken (by omega) (by omega)

/-- Whatever the controller answers, `ps2_controller_init` ends after a bounded number of accesses to the two ports,
writes no byte to the data port but behind a status that shows room for it, and reads none but behind one that shows it, the
two that are thrown away apart. -/
theorem ps2ControllerInit_speaks (info : Ps2Info) : Speaks 2 (17 * ps2Timeout + 36) (ps2ControllerInit info) := by
  unfold ps2ControllerInit
  refine (ps2SelfTest_speaks.bind fun conf => (?_ : Speaks 1 (13 * ps2Timeout + 25) _)).weaken (by omega) (by omega)
  cases conf with
  | none => exact Speaks.pure _ _ _
  | some conf =>
    refine (ps2CheckDual_speaks.bind fun r => (?_ : Speaks 1 (11 * ps2Timeout + 19) _)).weaken (by omega) (by omega)
    obtain ⟨dual, conf⟩ := r
    refine ((ps2TestPorts_speaks dual).bind fun r => (?_ : Speaks 1 (9 * ps2Timeout + 15) _)).weaken (by omega) (by omega)
    obtain ⟨port1, port2⟩ := r
    dsimp only
    split_ifs
    · exact Speaks.pure _ _ _
    · exact ((ps2EnablePorts_speaks conf port1 port2).bind fun _ => flushOutBuff_speaks.bind fun _ =>
        (ps2ResetDevs_speaks port1 port2).bind fun _ => Speaks.pure 0 0 _).weaken (by omega) (by omega)

end

/-! ## What is reported -/

/-- The controller has answered a command: after it the status was read until it showed a byte, which was `v`. -/
def Answered (c v : BitVec 8) (es : List PortEvent) : Prop :=
  ∃ (pre post : List PortEvent) (polls : List (BitVec 8)) (status : BitVec 8) (u : Unit),
    es = pre ++ (⟨.outb ps2CommandRegister c, u⟩ :: polls.map (fun st => ⟨.inb ps2StatusReg, st⟩) ++
      [⟨.inb ps2StatusReg, status⟩, ⟨.inb ps2DataPort, v⟩]) ++ post ∧
    (∀ st ∈ polls, st.getLsbD ps2StatusOutBuff = false) ∧ status.getLsbD ps2StatusOutBuff = true

section
variable {es : List PortEvent} {c v : BitVec 8} {r : Int} {info info' : Ps2Info}

theorem Answered.append (h : Answered c v es) (before behind : List PortEvent) :
    Answered c v (before ++ es ++ behind) := by
  obtain ⟨pre, post, polls, status, u, rfl, hpolls, hstatus⟩ := h
  exact ⟨before ++ pre, post ++ behind, polls, status, u, by simp, hpolls, hstatus⟩

theorem Answered.left (h : Answered c v es) (behind : List PortEvent) : Answered c v (es ++ behind) := h.append [] behind

theorem Answered.right (h : Answered c v es) (before : List PortEvent) : Answered c v (before ++ es) := by
  have happ := h.append before []
  rwa [List.append_nil] at happ

/-- A value that is returned for a command was the answer to it. -/
theorem writePs2BcommandRet_talk (h : Dialogue.Talk (writePs2BcommandRet c) es r) {n : Nat} (hn : n < 256)
    (hr : r = (n : Int)) : Answered c (BitVec.ofNat 8 n) es := by
  obtain ⟨es₁, u, es₂, rfl, h₁, h₂⟩ := Dialogue.talk_bind.1 h
  obtain rfl := Dialogue.talk_once.1 h₁
  obtain ⟨polls, -, hpolls, ⟨rfl, -⟩ | ⟨st, v, -, hst, rfl, rfl⟩⟩ := pollRead_talk h₂
  · omega
  · obtain rfl : v.toNat = n := by exact_mod_cast hr
    rw [BitVec.ofNat_toNat, BitVec.setWidth_eq]
    exact ⟨[], [], polls, st, u, by simp, hpolls, hst⟩

theorem ps2SelfTest_talk {conf : BitVec 8} (h : Dialogue.Talk ps2SelfTest es (some conf)) : Answered 0xAA 0x55 es := by
  obtain ⟨es₁, _, es, rfl, -, h⟩ := Dialogue.talk_bind.1 h
  obtain ⟨es₂, _, es, rfl, -, h⟩ := Dialogue.talk_bind.1 h
  obtain ⟨es₃, _, es, rfl, -, h⟩ := Dialogue.talk_bind.1 h
  obtain ⟨es₄, _, es, rfl, -, h⟩ := Dialogue.talk_bind.1 h
  obtain ⟨es₅, _, es, rfl, -, h⟩ := Dialogue.talk_bind.1 h
  obtain ⟨es₆, answer, es, rfl, hanswer, h⟩ := Dialogue.talk_bind.1 h
  by_cases hgood : answer = 0x55
  · have hans := writePs2BcommandRet_talk hanswer (by decide : 0x55 < 256) hgood
    exact ((((((hans.left _).right _).right _).right _).right _).right _)
  · rw [if_pos hgood] at h
    obtain ⟨-, hnone⟩ := Dialogue.talk_pure.1 h
    cases hnone

theorem ps2TestPorts_talk {dual port1 port2 : Bool} (h : Dialogue.Talk (ps2TestPorts dual) es (port1, port2)) :
    (port1 = true → Answered 0xAB 0 es) ∧ (port2 = true → dual = true ∧ Answered 0xA9 0 es) := by
  obtain ⟨es₁, r1, es₂, rfl, h₁, h⟩ := Dialogue.talk_bind.1 h
  have hfirst : r1 = 0 → Answered 0xAB 0 (es₁ ++ es₂) :=
    fun hr => (writePs2BcommandRet_talk h₁ (by decide : 0 < 256) hr).left es₂
  cases dual with
  | false =>
    obtain ⟨rfl, heq⟩ := Dialogue.talk_pure.1 h
    cases heq
    exact ⟨fun hport => hfirst (of_decide_eq_true hport), fun hport => nomatch hport⟩
  | true =>
    rw [if_pos rfl] at h
    obtain ⟨es₃, r2, es₄, rfl, h₂, h⟩ := Dialogue.talk_bind.1 h
    obtain ⟨rfl, heq⟩ := Dialogue.talk_pure.1 h
    cases heq
    refine ⟨fun hport => hfirst (of_decide_eq_true hport), fun hport => ⟨rfl, ?_⟩⟩
    exact ((writePs2BcommandRet_talk h₂ (by decide : 0 < 256) (of_decide_eq_true hport)).left []).right es₁

/-- Success is reported only by a controller that has passed its self test and has a port that has passed its own, the
second one only where a second channel was found; without success nothing is noted down. -/
theorem ps2ControllerInit_reports (h : Dialogue.Talk (ps2ControllerInit info) es (r, info')) :
    (r = 0 ∧ info'.present = true ∧ info'.enabled = true ∧ Answered 0xAA 0x55 es ∧
      (Answered 0xAB 0 es ∨ info'.isDualChannel = true ∧ Answered 0xA9 0 es)) ∨ r = -1 ∧ info' = info := by
  obtain ⟨es₁, conf, es, rfl, h₁, h⟩ := Dialogue.talk_bind.1 h
  cases conf with
  | none =>
    obtain ⟨-, heq⟩ := Dialogue.talk_pure.1 h
    cases heq
    exact .inr ⟨rfl, rfl⟩
  | some conf =>
    have htest := ps2SelfTest_talk h₁
    obtain ⟨es₂, ⟨dual, conf⟩, es, rfl, -, h⟩ := Dialogue.talk_bind.1 h
    obtain ⟨es₃, ⟨port1, port2⟩, es, rfl, h₃, h⟩ := Dialogue.talk_bind.1 h
    obtain ⟨hport1, hport2⟩ := ps2TestPorts_talk h₃
    dsimp only at h
    by_cases hnone : (!port1 && !port2) = true
    · rw [if_pos hnone] at h
      obtain ⟨-, heq⟩ := Dialogue.talk_pure.1 h
      cases heq
      exact .inr ⟨rfl, rfl⟩
    · rw [if_neg hnone] at h
      obtain ⟨es₄, conf, es, rfl, -, h⟩ := Dialogue.talk_bind.1 h
      obtain ⟨es₅, _, es, rfl, -, h⟩ := Dialogue.talk_bind.1 h
      obtain ⟨es₆, _, es, rfl, -, h⟩ := Dialogue.talk_bind.1 h
      obtain ⟨-, heq⟩ := Dialogue.talk_pure.1 h
      cases heq
      refine .inl ⟨rfl, rfl, rfl, htest.left _, ?_⟩
      cases port1 with
      | true => exact .inl (((hport1 rfl).left _ |>.right _).right _)
      | false =>
        cases port2 with
        | true =>
          obtain ⟨hdual, hans⟩ := hport2 rfl
          exact .inr ⟨hdual, (hans.left _ |>.right _).right _⟩
        | false => exact absurd rfl hnone

end

end Icarus.Drivers
