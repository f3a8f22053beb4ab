/-
The controller at the other end of `ps2_controller_init` (PS2_Controller.c): with an 8042 that takes its time, of one
channel or of two, with devices that answer whatever they like to a reset, what is reported and noted down is what the
controller is like and how it is left.
-/
import Icarus.Drivers.Ps2Controller

namespace Icarus.Drivers

open Icarus.Base Icarus.Base.Dialogue

/-! ## The controller -/

/-- A controller with its devices: whether it has a second channel, the answer to the self test and what that makes of the
configuration, the answers to the tests of the ports, and what the devices say to a reset. -/
structure I8042 where
  dual : Bool
  selfTest : BitVec 8
  afterTest : BitVec 8 → BitVec 8
  test1 : BitVec 8
  test2 : BitVec 8
  reply1 : List (BitVec 8)
  reply2 : List (BitVec 8)

/-- Its configuration byte, the command that waits for its second byte, the bytes to be read, and for how many looks at
the status a byte may still not show and the last one written may still not be taken. -/
structure I8042State where
  config : BitVec 8
  expects : Option (BitVec 8)
  out : List (BitVec 8)
  late : Nat
  busy : Nat

namespace I8042

variable (c : I8042)

/-- Without a second channel its clock is always off. -/
def stored (v : BitVec 8) : BitVec 8 := if c.dual then v else v ||| 0x20#8

/-- What a command does. -/
def command (cmd : BitVec 8) (s : I8042State) : I8042State :=
  if cmd = 0x20 then { s with out := s.out ++ [s.config] }
  else if cmd = 0x60 ∨ cmd = 0xD4 then { s with expects := some cmd }
  else if cmd = 0xA7 then { s with config := c.stored (s.config ||| 0x20#8) }
  else if cmd = 0xA8 then { s with config := c.stored (s.config &&& ~~~0x20#8) }
  else if cmd = 0xA9 then { s with out := s.out ++ [c.test2] }
  else if cmd = 0xAA then { s with config := c.stored (c.afterTest s.config), out := s.out ++ [c.selfTest] }
  else if cmd = 0xAB then { s with out := s.out ++ [c.test1] }
  else if cmd = 0xAD then { s with config := s.config ||| 0x10#8 }
  else if cmd = 0xAE then { s with config := s.config &&& ~~~0x10#8 }
  else s

/-- What a byte at the data port does: it completes a command, or goes to the first device, if its clock is on. -/
def data (v : BitVec 8) (s : I8042State) : I8042State :=
  if s.expects = some 0x60 then { s with config := c.stored v, expects := none }
  else if s.expects = some 0xD4 then
    { s with expects := none, out := if v = 0xFF ∧ s.config.getLsbD 5 = false then s.out ++ c.reply2 else s.out }
  else { s with out := if v = 0xFF ∧ s.config.getLsbD 4 = false then s.out ++ c.reply1 else s.out }

/-- Looking at the status: a byte that shows is there, one that is there shows in time, and so for what was written. -/
def Shows (s : I8042State) (status : BitVec 8) (s' : I8042State) : Prop :=
  (status.getLsbD ps2StatusOutBuff = true → s.out ≠ []) ∧
  (status.getLsbD ps2StatusOutBuff = false → s.out = [] ∨ 0 < s.late) ∧
  (status.getLsbD ps2StatusInBuff = true → 0 < s.busy) ∧
  s' = { s with
    late := if status.getLsbD ps2StatusOutBuff then 0 else s.late - 1
    busy := if status.getLsbD ps2StatusInBuff then s.busy - 1 else 0 }

/-- Reading the data port: the byte that shows, behind which the next one comes in time. -/
def Reads (s : I8042State) (v : BitVec 8) (s' : I8042State) : Prop :=
  match s.out with
  | [] => s' = s
  | b :: rest => if s.late = 0 then v = b ∧ ∃ n < ps2Timeout, s' = { s with out := rest, late := n } else s' = s

/-- A byte is taken, and what it makes the controller say comes in time; it may stay busy only with the first byte of a
command of two. -/
def Takes (f : I8042State → I8042State) (long : Prop) (s s' : I8042State) : Prop :=
  if s.busy = 0 then ∃ n < ps2Timeout, ∃ k, (k = 0 ∨ long ∧ k < ps2Timeout) ∧
    s' = { f s with late := if s.out = [] then n else s.late, busy := k }
  else s' = s

/-- The controller as a partner; a byte that is written while it is busy is lost. -/
def partner : Partner PortOp PortOp.Ans I8042State := fun s e s' =>
  match e with
  | ⟨.inb port, v⟩ => if port = ps2StatusReg then Shows s v s' else if port = ps2DataPort then Reads s v s' else s' = s
  | ⟨.outb port v, _⟩ =>
    if port = ps2CommandRegister then Takes (c.command v) (v = 0x60 ∨ v = 0xD4) s s'
    else if port = ps2DataPort then Takes (c.data v) False s s'
    else s' = s

/-- Idle, with this configuration and these bytes to be read. -/
def Idle (conf : BitVec 8) (out : List (BitVec 8)) (s : I8042State) : Prop :=
  ∃ late < ps2Timeout, s = ⟨conf, none, out, late, 0⟩

end I8042

open I8042

/-! ## Waiting -/

section
variable {c : I8042} {conf b : BitVec 8} {expects : Option (BitVec 8)} {out rest : List (BitVec 8)}

/-- Looking at the status of a controller that is not busy. -/
theorem shows_idle {late : Nat} {status : BitVec 8} {s' : I8042State}
    (h : Shows ⟨conf, expects, out, late, 0⟩ status s') :
    (status.getLsbD ps2StatusOutBuff = true → out ≠ [] ∧ s' = ⟨conf, expects, out, 0, 0⟩) ∧
    (status.getLsbD ps2StatusOutBuff = false → (out = [] ∨ 0 < late) ∧ s' = ⟨conf, expects, out, late - 1, 0⟩) := by
  obtain ⟨hshow, hwait, hroom, rfl⟩ := h
  have hidle : status.getLsbD ps2StatusInBuff = false := by
    cases hst : status.getLsbD ps2StatusInBuff with
    | false => rfl
    | true => exact absurd (hroom hst) (Nat.lt_irrefl 0)
  rw [hidle]
  refine ⟨fun hst => ⟨hshow hst, ?_⟩, fun hst => ⟨hwait hst, ?_⟩⟩
  · rw [hst]
    rfl
  · rw [hst]
    rfl

/-- The byte that is there is read in time. -/
theorem pollRead_byte : ∀ {n late : Nat}, late < n →
    Ends c.partner (fun r s' => r = (b.toNat : Int) ∧ ∃ k < ps2Timeout, s' = ⟨conf, expects, rest, k, 0⟩)
      (pollRead n) ⟨conf, expects, b :: rest, late, 0⟩
  | n + 1, late, hlate => by
    rw [pollRead, ends_bind]
    intro status s' hshows
    obtain ⟨hready, hwait⟩ := shows_idle hshows
    show Ends c.partner _ (if _ then _ else _) _
    cases hst : status.getLsbD ps2StatusOutBuff with
    | true =>
      obtain ⟨-, rfl⟩ := hready hst
      rw [if_pos rfl, ends_bind]
      rintro v s'' ⟨rfl, k, hk, rfl⟩
      exact ⟨rfl, k, hk, rfl⟩
    | false =>
      obtain ⟨hlate', rfl⟩ := hwait hst
      have hmore : 0 < late := hlate'.resolve_left (List.cons_ne_nil _ _)
      rw [if_neg (by decide)]
      exact pollRead_byte (by omega)

/-- Where there is none the wait is given up. -/
theorem pollRead_none : ∀ {n late : Nat}, late < ps2Timeout →
    Ends c.partner (fun r s' => r = -1 ∧ ∃ k < ps2Timeout, s' = ⟨conf, expects, [], k, 0⟩)
      (pollRead n) ⟨conf, expects, [], late, 0⟩
  | 0, late, hlate => ⟨rfl, late, hlate, rfl⟩
  | n + 1, late, hlate => by
    rw [pollRead, ends_bind]
    intro status s' hshows
    obtain ⟨hready, hwait⟩ := shows_idle hshows
    show Ends c.partner _ (if _ then _ else _) _
    cases hst : status.getLsbD ps2StatusOutBuff with
    | true => exact absurd rfl (hready hst).1
    | false =>
      obtain ⟨-, rfl⟩ := hwait hst
      rw [if_neg (by decide)]
      exact pollRead_none (by omega)

/-- A byte is written as soon as the one before is taken. -/
theorem pollWrite_taken {v : BitVec 8} : ∀ {n late busy : Nat}, busy < n →
    Ends c.partner (fun r s' => r = 0 ∧ ∃ late', c.partner ⟨conf, expects, out, late', 0⟩ ⟨.outb ps2DataPort v, ()⟩ s' ∧
        late' ≤ late) (pollWrite v n) ⟨conf, expects, out, late, busy⟩
  | n + 1, late, busy, hbusy => by
    rw [pollWrite, ends_bind]
    rintro status s' ⟨-, -, hroom, rfl⟩
    show Ends c.partner _ (if _ then _ else _) _
    have hle : (if status.getLsbD ps2StatusOutBuff then 0 else late - 1) ≤ late := by split_ifs <;> omega
    cases hst : status.getLsbD ps2StatusInBuff with
    | true =>
      rw [if_pos rfl]
      refine (pollWrite_taken ?_).mono fun r s'' h => ?_
      · have := hroom hst
        dsimp only at this ⊢
        rw [if_pos rfl]
        omega
      · obtain ⟨rfl, late', hstep, hle'⟩ := h
        exact ⟨rfl, late', hstep, hle'.trans hle⟩
    | false =>
      rw [if_neg (by decide), ends_bind]
      intro u s'' hstep
      exact ⟨rfl, _, hstep, hle⟩

/-! ## The functions -/

/-- A command that is not answered. -/
theorem command_quiet (conf' : BitVec 8) {cmd : BitVec 8} (hshort : ¬(cmd = 0x60 ∨ cmd = 0xD4))
    (h : ∀ late, c.command cmd ⟨conf, none, out, late, 0⟩ = ⟨conf', none, out, late, 0⟩) :
    Meets c.partner (Idle conf out) (writePs2Bcommand cmd) fun _ => Idle conf' out := by
  rintro _ ⟨late, hlate, rfl⟩ u s' hstep
  obtain ⟨n, hn, k, rfl | ⟨hlong, -⟩, rfl⟩ := hstep
  · rw [h]
    refine ⟨if out = [] then n else late, ?_, rfl⟩
    split_ifs <;> assumption
  · exact absurd hlong hshort

/-- A command that is answered at once, and returns the answer. -/
theorem command_answered (conf' answer : BitVec 8) {cmd : BitVec 8} (hshort : ¬(cmd = 0x60 ∨ cmd = 0xD4))
    (h : ∀ late, c.command cmd ⟨conf, none, [], late, 0⟩ = ⟨conf', none, [answer], late, 0⟩) :
    Meets c.partner (Idle conf []) (writePs2BcommandRet cmd) fun r s => r = (answer.toNat : Int) ∧ Idle conf' [] s := by
  rintro _ ⟨late, hlate, rfl⟩
  rw [writePs2BcommandRet, ends_bind]
  intro u s' hstep
  obtain ⟨n, hn, k, rfl | ⟨hlong, -⟩, rfl⟩ := hstep
  · rw [h, if_pos rfl]
    exact pollRead_byte hn
  · exact absurd hlong hshort

theorem configCommand_low (v : BitVec 8) : (configCommand v).setWidth 8 = 0x60#8 := by
  apply BitVec.eq_of_getLsbD_eq
  intro i hi
  unfold configCommand
  interval_cases i <;> simp

theorem configCommand_high (v : BitVec 8) : (configCommand v >>> 8).setWidth 8 = v := by
  apply BitVec.eq_of_getLsbD_eq
  intro i hi
  unfold configCommand
  interval_cases i <;> simp

/-- A byte of data is taken however long the controller is still busy. -/
theorem data_taken {v conf' : BitVec 8} {out' : List (BitVec 8)} {late busy : Nat} (hlate : late < ps2Timeout)
    (hbusy : busy < ps2Timeout)
    (h : ∀ late, c.data v ⟨conf, expects, out, late, 0⟩ = ⟨conf', none, out', late, 0⟩) :
    Ends c.partner (fun r s => r = 0 ∧ Idle conf' out' s) (pollWrite v ps2Timeout) ⟨conf, expects, out, late, busy⟩ := by
  refine (pollWrite_taken hbusy).mono fun r s' htaken => ?_
  obtain ⟨rfl, late', ⟨n, hn, k, rfl | ⟨hlong, -⟩, rfl⟩, hle⟩ := htaken
  · rw [h]
    refine ⟨rfl, if out = [] then n else late', ?_, rfl⟩
    split_ifs
    · exact hn
    · exact Nat.lt_of_le_of_lt hle hlate
  · exact absurd hlong id

/-- A command that waits for a second byte. -/
theorem command_long {cmd : BitVec 8} (hlong : cmd = 0x60 ∨ cmd = 0xD4) {Q : Unit → I8042State → Prop}
    (h : ∀ late busy, late < ps2Timeout → busy < ps2Timeout → Q () ⟨conf, some cmd, out, late, busy⟩) :
    Meets c.partner (Idle conf out) (writePs2Bcommand cmd) Q := by
  rintro _ ⟨late, hlate, rfl⟩ u s' ⟨n, hn, k, hk, rfl⟩
  have hcommand : ∀ late, c.command cmd ⟨conf, none, out, late, 0⟩ = ⟨conf, some cmd, out, late, 0⟩ := by
    intro late
    rcases hlong with rfl | rfl
    · rfl
    · rfl
  rw [hcommand]
  refine h (if out = [] then n else late) k ?_ ?_
  · split_ifs <;> assumption
  · rcases hk with rfl | ⟨-, hk⟩
    · exact Nat.lt_of_le_of_lt (Nat.zero_le n) hn
    · exact hk

theorem config_written (v : BitVec 8) :
    Meets c.partner (Idle conf []) (writePs22bcommand (configCommand v)) fun _ => Idle (c.stored v) [] := by
  intro s hs
  rw [writePs22bcommand, configCommand_low, configCommand_high]
  refine (command_long (.inl rfl) fun late busy hlate hbusy => ?_).bind (fun u s h => h) s hs
  exact (data_taken hlate hbusy fun late => rfl).mono fun r s h => h.2

theorem flushOutBuff_idle : Meets c.partner (Idle conf []) flushOutBuff fun _ => Idle conf [] := by
  rintro _ ⟨late, hlate, rfl⟩ v s' hread
  obtain rfl : s' = _ := hread
  exact ⟨late, hlate, rfl⟩

/-- What `ps2_reset_dev` leaves unread of what is there. -/
def unheard : List (BitVec 8) → List (BitVec 8)
  | [] => []
  | b1 :: rest =>
    if b1 = 0xFC then rest
    else match rest with
      | [] => []
      | b2 :: rest => if (b1 = 0xFA ∧ b2 = 0xAA) ∨ (b1 = 0xAA ∧ b2 = 0xFA) then rest.drop 1 else rest

theorem readTimeout_byte :
    Meets c.partner (Idle conf (b :: rest)) ps2ReadTimeout fun r s => r = (b.toNat : Int) ∧ Idle conf rest s := by
  rintro _ ⟨late, hlate, rfl⟩
  exact pollRead_byte hlate

theorem readTimeout_none : Meets c.partner (Idle conf []) ps2ReadTimeout fun r s => r = -1 ∧ Idle conf [] s := by
  rintro _ ⟨late, hlate, rfl⟩
  exact pollRead_none hlate

theorem toNat_eq_literal {n : Nat} (hn : n < 256) : ((b.toNat : Int) = (n : Int)) ↔ b = BitVec.ofNat 8 n := by
  rw [Int.natCast_inj]
  constructor
  · rintro rfl
    rw [BitVec.ofNat_toNat, BitVec.setWidth_eq]
  · rintro rfl
    rw [BitVec.toNat_ofNat, Nat.mod_eq_of_lt hn]

/-- The answers to a reset are read up to where they stop making sense. -/
theorem resetAnswers_heard (out : List (BitVec 8)) :
    Meets c.partner (Idle conf out) ps2ResetAnswers fun _ => Idle conf (unheard out) := by
  unfold ps2ResetAnswers
  rcases out with _ | ⟨b1, rest⟩
  · refine readTimeout_none.bind fun r1 => ?_
    rintro s ⟨rfl, hs⟩
    exact hs
  · refine readTimeout_byte.bind fun r1 => ?_
    rintro s ⟨rfl, hs⟩
    rw [if_neg (by omega)]
    unfold unheard
    have hfc : ((b1.toNat : Int) = 0xFC) ↔ b1 = 0xFC := toNat_eq_literal (by decide : 0xFC < 256)
    have hfa : ((b1.toNat : Int) = 0xFA) ↔ b1 = 0xFA := toNat_eq_literal (by decide : 0xFA < 256)
    have haa : ((b1.toNat : Int) = 0xAA) ↔ b1 = 0xAA := toNat_eq_literal (by decide : 0xAA < 256)
    simp only [hfc, hfa, haa]
    by_cases hfail : b1 = 0xFC
    · rw [if_pos hfail, if_pos hfail]
      exact hs
    · rw [if_neg hfail, if_neg hfail]
      rcases rest with _ | ⟨b2, rest⟩
      · refine (readTimeout_none.bind fun r2 => ?_) s hs
        rintro s ⟨rfl, hs⟩
        exact hs
      · refine (readTimeout_byte.bind fun r2 => ?_) s hs
        rintro s ⟨rfl, hs⟩
        rw [if_neg (by omega)]
        have hfa' : ((b2.toNat : Int) = 0xFA) ↔ b2 = 0xFA := toNat_eq_literal (by decide : 0xFA < 256)
        have haa' : ((b2.toNat : Int) = 0xAA) ↔ b2 = 0xAA := toNat_eq_literal (by decide : 0xAA < 256)
        simp only [hfa', haa', ite_not]
        split_ifs
        · rcases rest with _ | ⟨b3, rest⟩
          · refine (readTimeout_none.bind fun r3 => ?_) s hs
            rintro s ⟨-, hs⟩
            exact hs
          · refine (readTimeout_byte.bind fun r3 => ?_) s hs
            rintro s ⟨-, hs⟩
            exact hs
        · exact hs

/-! ## Resetting the devices -/

/-- The first device gets its reset, and answers it. -/
theorem ps2ResetDev_one (hclock : conf.getLsbD 4 = false) :
    Meets c.partner (Idle conf out) (ps2ResetDev 1) fun _ => Idle conf (unheard (out ++ c.reply1)) := by
  have hdata : ∀ late, c.data 0xFF ⟨conf, none, out, late, 0⟩ = ⟨conf, none, out ++ c.reply1, late, 0⟩ := by
    intro late
    unfold I8042.data
    rw [if_neg (by simp), if_neg (by simp), if_pos ⟨rfl, hclock⟩]
  have hsend : Meets c.partner (Idle conf out) (ps2SendDev 1 0xFF) fun r s => r = 0 ∧ Idle conf (out ++ c.reply1) s := by
    rintro _ ⟨late, hlate, rfl⟩
    exact data_taken hlate (Nat.lt_of_le_of_lt (Nat.zero_le late) hlate) hdata
  refine hsend.bind fun sent => ?_
  rintro s ⟨rfl, hs⟩
  exact resetAnswers_heard _ s hs

/-- So does the second one. -/
theorem ps2ResetDev_two (hclock : conf.getLsbD 5 = false) :
    Meets c.partner (Idle conf out) (ps2ResetDev 2) fun _ => Idle conf (unheard (out ++ c.reply2)) := by
  have hdata : ∀ late, c.data 0xFF ⟨conf, some 0xD4, out, late, 0⟩ = ⟨conf, none, out ++ c.reply2, late, 0⟩ := by
    intro late
    unfold I8042.data
    rw [if_neg (by simp), if_pos rfl, if_pos ⟨rfl, hclock⟩]
  have hsend : Meets c.partner (Idle conf out) (ps2SendDev 2 0xFF) fun r s => r = 0 ∧ Idle conf (out ++ c.reply2) s :=
    (command_long (.inr rfl) fun late busy hlate hbusy => data_taken hlate hbusy hdata).bind fun u s h => h
  refine hsend.bind fun sent => ?_
  rintro s ⟨rfl, hs⟩
  exact resetAnswers_heard _ s hs

/-! ## The course of it -/

theorem stored_of_bit {v : BitVec 8} (h : c.dual = false → v.getLsbD 5 = true) : c.stored v = v := by
  unfold stored
  cases hdual : c.dual with
  | true => rfl
  | false =>
    have hbit := h hdual
    rw [if_neg (by decide)]
    apply BitVec.eq_of_getLsbD_eq
    intro i hi
    interval_cases i <;> simp_all

/-- Nothing is under way, and at most one byte is to be read, which shows. -/
def AtRest (s : I8042State) : Prop :=
  s.expects = none ∧ s.busy = 0 ∧ s.late < ps2Timeout ∧ s.out.length ≤ 1 ∧ (s.out = [] ∨ s.late = 0)

/-- The same with this configuration. -/
def RestsWith (conf : BitVec 8) (s : I8042State) : Prop := AtRest s ∧ s.config = conf

/-- A command to a controller that may still hold a byte. -/
theorem command_rests (conf' : BitVec 8) {cmd : BitVec 8} (hshort : ¬(cmd = 0x60 ∨ cmd = 0xD4))
    (h : ∀ out late, c.command cmd ⟨conf, none, out, late, 0⟩ = ⟨conf', none, out, late, 0⟩) :
    Meets c.partner (RestsWith conf) (writePs2Bcommand cmd) fun _ => RestsWith conf' := by
  rintro ⟨_, _, out, late, _⟩ ⟨⟨rfl, rfl, hlate, hlen, hshows⟩, rfl⟩ u s' ⟨n, hn, k, rfl | ⟨hlong, -⟩, rfl⟩
  · rw [h]
    refine ⟨⟨rfl, rfl, ?_, hlen, ?_⟩, rfl⟩
    · dsimp only
      split_ifs
      · exact hn
      · exact hlate
    · rcases hshows with hout | hzero
      · exact .inl hout
      · dsimp only at hzero ⊢
        by_cases hout : out = []
        · exact .inl hout
        · rw [if_neg hout]
          exact .inr hzero
  · exact absurd hlong hshort

/-- The byte is thrown away. -/
theorem flush_rests : Meets c.partner (RestsWith conf) flushOutBuff fun _ => Idle conf [] := by
  rintro ⟨conf, _, out, late, _⟩ ⟨⟨rfl, rfl, hlate, hlen, hshows⟩, rfl⟩ v s' hread
  rcases out with _ | ⟨b, _ | ⟨b', rest⟩⟩
  · obtain rfl : s' = _ := hread
    exact ⟨late, hlate, rfl⟩
  · have hzero : late = 0 := hshows.resolve_left (List.cons_ne_nil _ _)
    have hread : if late = 0 then v = b ∧ ∃ n < ps2Timeout, s' = ⟨conf, none, [], n, 0⟩ else s' = _ := hread
    rw [if_pos hzero] at hread
    obtain ⟨-, n, hn, rfl⟩ := hread
    exact ⟨n, hn, rfl⟩
  · simp at hlen

/-- The configuration byte for the self test, which clears bits 0, 4 and 6. -/
def selfTestConfig (conf : BitVec 8) : BitVec 8 := (conf ||| 0x30#8) &&& ~~~0x51#8

/-- With a second channel its interrupt and its clock bit are cleared too. -/
def I8042.checkedConfig (c : I8042) (conf : BitVec 8) : BitVec 8 :=
  if c.dual then selfTestConfig conf &&& ~~~0x23#8 else selfTestConfig conf

/-- The first port passes its test. -/
def I8042.port1Ok (c : I8042) : Bool := c.test1 = 0

/-- So does the second, where there is one. -/
def I8042.port2Ok (c : I8042) : Bool := c.dual && c.test2 = 0

/-- The configuration in the end. -/
def I8042.finalConfig (c : I8042) (conf : BitVec 8) : BitVec 8 :=
  let conf := if c.port1Ok then c.checkedConfig conf ||| 1#8 else c.checkedConfig conf
  if c.port2Ok then conf ||| 1#8 <<< 1 else conf

/-- What the devices have said and nobody has read. -/
def I8042.leftOver (c : I8042) : List (BitVec 8) :=
  let out := if c.port1Ok then unheard c.reply1 else []
  if c.port2Ok then unheard (out ++ c.reply2) else out

theorem selfTestConfig_bit (i : Nat) (hi : i < 8) : (selfTestConfig conf).getLsbD i =
    if i = 0 ∨ i = 4 ∨ i = 6 then false else if i = 5 then true else conf.getLsbD i := by
  unfold selfTestConfig
  interval_cases i <;> simp

theorem checkedConfig_bit (i : Nat) (hi : i < 8) : (c.checkedConfig conf).getLsbD i =
    if i = 0 ∨ i = 4 ∨ i = 6 then false else if i = 5 then !c.dual else if i = 1 then !c.dual && conf.getLsbD i
    else conf.getLsbD i := by
  have hself : (selfTestConfig conf).getLsbD i = _ := selfTestConfig_bit i hi
  unfold I8042.checkedConfig
  cases c.dual with
  | false =>
    rw [if_neg (by decide), hself]
    interval_cases i <;> simp
  | true =>
    rw [if_pos rfl, BitVec.getLsbD_and, hself]
    interval_cases i <;> simp

theorem finalConfig_bit (i : Nat) (hi : i < 8) : (c.finalConfig conf).getLsbD i =
    if i = 0 then c.port1Ok else if i = 1 then c.port2Ok || !c.dual && conf.getLsbD i
    else if i = 4 ∨ i = 6 then false else if i = 5 then !c.dual else conf.getLsbD i := by
  have hchecked : (c.checkedConfig conf).getLsbD i = _ := checkedConfig_bit i hi
  unfold I8042.finalConfig
  cases c.port1Ok <;> cases c.port2Ok <;>
    simp only [Bool.false_eq_true, if_false, if_true, BitVec.getLsbD_or, hchecked] <;>
    interval_cases i <;> simp

/-- The bytes of answers are compared as what they are. -/
theorem ofInt_answer (v : BitVec 8) : BitVec.ofInt 8 (v.toNat : Int) = v := by
  rw [BitVec.ofInt_natCast, BitVec.ofNat_toNat, BitVec.setWidth_eq]

theorem selfTest_stored : c.stored (selfTestConfig conf) = selfTestConfig conf :=
  stored_of_bit fun _ => selfTestConfig_bit 5 (by decide)

theorem ps2SelfTest_passed (conf : BitVec 8) :
    Meets c.partner (RestsWith conf) ps2SelfTest fun r s =>
      if c.selfTest = 0x55 then r = some (selfTestConfig conf) ∧ Idle (selfTestConfig conf) [] s else r = none := by
  have hoff : ∀ out late, c.command 0xA7 ⟨conf ||| 0x10#8, none, out, late, 0⟩ =
      ⟨conf ||| 0x30#8, none, out, late, 0⟩ := by
    intro out late
    have hstored : c.stored (conf ||| 0x10#8 ||| 0x20#8) = conf ||| 0x30#8 := by
      rw [BitVec.or_assoc]
      exact stored_of_bit fun _ => by simp
    rw [← hstored]
    rfl
  unfold ps2SelfTest
  refine (command_rests (conf ||| 0x10#8) (by decide) fun out late => rfl).bind fun _ => ?_
  refine (command_rests (conf ||| 0x30#8) (by decide) hoff).bind fun _ => ?_
  refine flush_rests.bind fun _ => ?_
  refine (command_answered (conf ||| 0x30#8) (conf ||| 0x30#8) (by decide) fun late => rfl).bind fun answer => ?_
  rintro s ⟨rfl, hs⟩
  have hconf : (conf ||| 0x30#8) &&& ~~~(1#8 ||| 1#8 <<< 4 ||| 1#8 <<< 6) = selfTestConfig conf := rfl
  dsimp only
  rw [ofInt_answer, hconf]
  refine ((config_written _).bind fun _ => ?_) s hs
  refine (command_answered (c.stored (c.afterTest (selfTestConfig conf))) c.selfTest (by decide) ?_).bind fun answer => ?_
  · intro late
    rw [selfTest_stored]
    rfl
  rintro s ⟨rfl, hs⟩
  have hgood : ((c.selfTest.toNat : Int) = 0x55) ↔ c.selfTest = 0x55 := toNat_eq_literal (by decide : 0x55 < 256)
  simp only [ne_eq, hgood, ite_not]
  split_ifs
  · refine ((config_written _).bind fun _ => ?_) s hs
    rw [selfTest_stored]
    exact fun s hs => ⟨rfl, hs⟩
  · rfl

theorem checked_stored : c.stored (c.checkedConfig conf) = c.checkedConfig conf :=
  stored_of_bit fun hdual => by rw [checkedConfig_bit 5 (by decide), hdual]; rfl

/-- The second channel is found where there is one. -/
theorem ps2CheckDual_finds (conf : BitVec 8) :
    Meets c.partner (Idle (selfTestConfig conf) []) ps2CheckDual fun r s =>
      r = (c.dual, c.checkedConfig conf) ∧ Idle (c.checkedConfig conf) [] s := by
  obtain ⟨on, hon⟩ : ∃ on, c.stored (selfTestConfig conf &&& ~~~0x20#8) = on := ⟨_, rfl⟩
  have henable : ∀ late, c.command 0xA8 ⟨selfTestConfig conf, none, [], late, 0⟩ = ⟨on, none, [], late, 0⟩ := by
    intro late
    rw [← hon]
    rfl
  have hbit : (selfTestConfig conf).getLsbD 5 = true := selfTestConfig_bit 5 (by decide)
  unfold ps2CheckDual
  refine (command_quiet on (by decide) henable).bind fun _ => ?_
  refine (command_answered on on (by decide) fun late => rfl).bind fun answer => ?_
  rintro s ⟨rfl, hs⟩
  dsimp only
  rw [ofInt_answer]
  cases hdual : c.dual with
  | true =>
    have hstored : c.stored = id := funext fun v => by rw [stored, hdual]; rfl
    obtain rfl : selfTestConfig conf &&& ~~~0x20#8 = on := by rw [← hon, hstored]; rfl
    have hclear : selfTestConfig conf &&& ~~~0x20#8 &&& 1#8 <<< 5 = 0 := by
      rw [BitVec.and_assoc]
      exact BitVec.and_zero
    have hconf : selfTestConfig conf &&& ~~~0x20#8 &&& ~~~(1#8 ||| 1#8 <<< 1 ||| 1#8 <<< 5) = c.checkedConfig conf := by
      rw [I8042.checkedConfig, hdual, BitVec.and_assoc]
      rfl
    have hoff : ∀ late, c.command 0xA7 ⟨selfTestConfig conf &&& ~~~0x20#8, none, [], late, 0⟩ =
        ⟨selfTestConfig conf &&& ~~~0x20#8 ||| 0x20#8, none, [], late, 0⟩ := by
      intro late
      show (⟨c.stored _, none, [], late, 0⟩ : I8042State) = _
      rw [hstored]
      rfl
    rw [if_pos hclear, hconf]
    refine ((command_quiet _ (by decide) hoff).bind fun _ => ?_) s hs
    refine (config_written _).bind fun _ => ?_
    rw [checked_stored]
    exact fun s hs => ⟨rfl, hs⟩
  | false =>
    obtain rfl : on = selfTestConfig conf := by
      rw [← hon, stored, hdual, if_neg (by decide)]
      apply BitVec.eq_of_getLsbD_eq
      intro i hi
      interval_cases i <;> simp_all
    have hset : ¬(selfTestConfig conf &&& 1#8 <<< 5 = 0) := by
      intro h
      have hzero : (selfTestConfig conf &&& 1#8 <<< 5).getLsbD 5 = false := by
        rw [h]
        rfl
      rw [BitVec.getLsbD_and, hbit] at hzero
      exact absurd hzero (by decide)
    have hconf : c.checkedConfig conf = selfTestConfig conf := by
      rw [I8042.checkedConfig, hdual]
      rfl
    rw [if_neg hset, hconf]
    exact ⟨rfl, hs⟩

/-- The interfaces tell how they are. -/
theorem ps2TestPorts_tells (conf : BitVec 8) :
    Meets c.partner (Idle conf []) (ps2TestPorts c.dual) fun r s => r = (c.port1Ok, c.port2Ok) ∧ Idle conf [] s := by
  have hzero : ∀ b : BitVec 8, decide ((b.toNat : Int) = 0) = decide (b = 0) := by
    intro b
    exact decide_eq_decide.2 (toNat_eq_literal (by decide : 0 < 256))
  unfold ps2TestPorts
  refine (command_answered conf c.test1 (by decide) fun late => rfl).bind fun r1 => ?_
  rintro s ⟨rfl, hs⟩
  unfold I8042.port2Ok
  cases hdual : c.dual with
  | true =>
    rw [if_pos rfl]
    refine ((command_answered conf c.test2 (by decide) fun late => rfl).bind fun r2 => ?_) s hs
    rintro s ⟨rfl, hs⟩
    rw [hzero, hzero]
    exact ⟨rfl, hs⟩
  | false =>
    rw [if_neg (by decide), hzero]
    exact ⟨rfl, hs⟩

/-- The working ports are on, and so are their interrupts. -/
theorem ps2EnablePorts_final (conf : BitVec 8) :
    Meets c.partner (Idle (c.checkedConfig conf) []) (ps2EnablePorts (c.checkedConfig conf) c.port1Ok c.port2Ok)
      fun r s => r = c.finalConfig conf ∧ Idle (c.finalConfig conf) [] s := by
  have hstored : c.stored (c.finalConfig conf) = c.finalConfig conf :=
    stored_of_bit fun hdual => by rw [finalConfig_bit 5 (by decide), hdual]; rfl
  have hfirst : c.checkedConfig conf &&& ~~~0x10#8 = c.checkedConfig conf := by
    apply BitVec.eq_of_getLsbD_eq
    intro i hi
    rw [BitVec.getLsbD_and, checkedConfig_bit i hi]
    interval_cases i <;> simp
  have hone : Meets c.partner (Idle (c.checkedConfig conf) []) (if c.port1Ok then writePs2Bcommand 0xAE else pure ())
      fun _ => Idle (c.checkedConfig conf) [] := by
    cases c.port1Ok with
    | true =>
      refine command_quiet _ (by decide) fun late => ?_
      show (⟨_, none, [], late, 0⟩ : I8042State) = _
      rw [hfirst]
    | false => exact fun s hs => hs
  have htwo : Meets c.partner (Idle (c.checkedConfig conf) []) (if c.port2Ok then writePs2Bcommand 0xA8 else pure ())
      fun _ => Idle (c.checkedConfig conf) [] := by
    cases hok : c.port2Ok with
    | true =>
      have hdual : c.dual = true := (Bool.and_eq_true_iff.1 hok).1
      have hsecond : c.checkedConfig conf &&& ~~~0x20#8 = c.checkedConfig conf := by
        apply BitVec.eq_of_getLsbD_eq
        intro i hi
        rw [BitVec.getLsbD_and, checkedConfig_bit i hi, hdual]
        interval_cases i <;> simp
      refine command_quiet _ (by decide) fun late => ?_
      show (⟨c.stored _, none, [], late, 0⟩ : I8042State) = _
      rw [hsecond, checked_stored]
    | false => exact fun s hs => hs
  unfold ps2EnablePorts
  refine hone.bind fun _ => htwo.bind fun _ => ?_
  refine (config_written (c.finalConfig conf)).bind fun _ => ?_
  rw [hstored]
  exact fun s hs => ⟨rfl, hs⟩

/-- The devices that are there have been reset. -/
theorem ps2ResetDevs_leave (conf : BitVec 8) :
    Meets c.partner (Idle (c.finalConfig conf) []) (ps2ResetDevs c.port1Ok c.port2Ok)
      fun _ => Idle (c.finalConfig conf) c.leftOver := by
  have hone : Meets c.partner (Idle (c.finalConfig conf) []) (if c.port1Ok then ps2ResetDev 1 else pure 0)
      fun _ => Idle (c.finalConfig conf) (if c.port1Ok then unheard c.reply1 else []) := by
    cases c.port1Ok with
    | true => exact ps2ResetDev_one (finalConfig_bit 4 (by decide))
    | false => exact fun s hs => hs
  have htwo : Meets c.partner (Idle (c.finalConfig conf) (if c.port1Ok then unheard c.reply1 else []))
      (if c.port2Ok then ps2ResetDev 2 else pure 0) fun _ => Idle (c.finalConfig conf) c.leftOver := by
    unfold I8042.leftOver
    cases hok : c.port2Ok with
    | true =>
      have hdual : c.dual = true := (Bool.and_eq_true_iff.1 hok).1
      exact ps2ResetDev_two (by rw [finalConfig_bit 5 (by decide), hdual]; rfl)
    | false => exact fun s hs => hs
  unfold ps2ResetDevs
  exact hone.bind fun _ => htwo.bind fun _ s hs => hs

/-- The controller is good for something: it passes its self test, and one of its ports passes its own. -/
def I8042.Works (c : I8042) : Prop := c.selfTest = 0x55 ∧ (c.port1Ok || c.port2Ok) = true

instance : Decidable c.Works := inferInstanceAs (Decidable (_ ∧ _))

/-- What `ps2_controller_init` comes to. -/
theorem ps2ControllerInit_meets (conf : BitVec 8) (info : Ps2Info) :
    Meets c.partner (RestsWith conf) (ps2ControllerInit info) fun r s =>
      c.Works ∧ r = (0, ⟨true, true, c.dual, c.finalConfig conf⟩) ∧ Idle (c.finalConfig conf) c.leftOver s ∨
        ¬c.Works ∧ r = (-1, info) := by
  unfold ps2ControllerInit
  refine (ps2SelfTest_passed conf).bind fun r => ?_
  intro s hs
  by_cases htest : c.selfTest = 0x55
  · rw [if_pos htest] at hs
    obtain ⟨rfl, hs⟩ := hs
    refine ((ps2CheckDual_finds conf).bind fun r => ?_) s hs
    rintro s ⟨rfl, hs⟩
    refine ((ps2TestPorts_tells _).bind fun r => ?_) s hs
    rintro s ⟨rfl, hs⟩
    dsimp only
    by_cases hok : (c.port1Ok || c.port2Ok) = true
    · rw [if_neg (by rw [← Bool.not_or, hok]; decide)]
      refine ((ps2EnablePorts_final conf).bind fun r => ?_) s hs
      rintro s ⟨rfl, hs⟩
      refine (flushOutBuff_idle.bind fun _ => (ps2ResetDevs_leave conf).bind fun _ => ?_) s hs
      exact fun s hs => .inl ⟨⟨htest, hok⟩, rfl, hs⟩
    · rw [if_pos (by rw [← Bool.not_or, Bool.eq_false_of_not_eq_true hok]; rfl)]
      exact .inr ⟨fun hworks => hok hworks.2, rfl⟩
  · rw [if_neg htest] at hs
    obtain rfl : r = none := hs
    exact .inr ⟨fun hworks => htest hworks.1, rfl⟩

/-- Whatever it is asked, the controller has an answer. -/
theorem partner_answers (c : I8042) (s : I8042State) (op : PortOp) : ∃ v s', c.partner s ⟨op, v⟩ s' := by
  have htime : 0 < ps2Timeout := by
    unfold ps2Timeout
    decide
  have htakes : ∀ (f : I8042State → I8042State) (long : Prop), ∃ s', Takes f long s s' := by
    intro f long
    by_cases hbusy : s.busy = 0
    · exact ⟨_, (if_pos hbusy).mpr ⟨0, htime, 0, .inl rfl, rfl⟩⟩
    · exact ⟨s, (if_neg hbusy).mpr rfl⟩
  unfold partner
  cases op with
  | inb port =>
    dsimp only
    split_ifs
    · by_cases hshow : s.out = [] ∨ 0 < s.late
      · exact ⟨0#8, _, fun h => absurd h (by decide), fun _ => hshow, fun h => absurd h (by decide), rfl⟩
      · exact ⟨1#8, _, fun _ hout => hshow (.inl hout), fun h => absurd h (by decide), fun h => absurd h (by decide),
          rfl⟩
    · unfold Reads
      rcases s.out with _ | ⟨b, rest⟩
      · exact ⟨0#8, s, rfl⟩
      · dsimp only
        split_ifs
        · exact ⟨b, _, rfl, 0, htime, rfl⟩
        · exact ⟨0#8, s, rfl⟩
    · exact ⟨0#8, s, rfl⟩
  | outb port v =>
    dsimp only
    split_ifs
    · obtain ⟨s', h⟩ := htakes (c.command v) (v = 0x60 ∨ v = 0xD4)
      exact ⟨(), s', h⟩
    · obtain ⟨s', h⟩ := htakes (c.data v) False
      exact ⟨(), s', h⟩
    · exact ⟨(), s, rfl⟩

/-- A controller of one channel that works, with a keyboard. -/
def keyboardController : I8042 :=
  ⟨false, 0x55, id, 0, 0, [0xFA, 0xAA], []⟩

theorem keyboardController_rests : AtRest ⟨0x45, none, [], 0, 0⟩ := by
  refine ⟨rfl, rfl, ?_, Nat.zero_le 1, .inl rfl⟩
  unfold ps2Timeout
  decide

/-- What it has reported then, the controller has said. -/
theorem ps2ControllerInit_reports_keyboard :
    ∃ es info', Talk (ps2ControllerInit ⟨false, false, false, 0⟩) es (0, info') ∧ info'.present = true ∧
      Answered 0xAA 0x55 es ∧ Answered 0xAB 0 es := by
  obtain ⟨es, ⟨r, info'⟩, s', htalk, halong⟩ :=
    exists_talk (partner_answers keyboardController) (ps2ControllerInit ⟨false, false, false, 0⟩) ⟨0x45, none, [], 0, 0⟩
  have hrests : RestsWith 0x45 ⟨0x45, none, [], 0, 0⟩ := ⟨keyboardController_rests, rfl⟩
  have hmeets := ps2ControllerInit_meets (c := keyboardController) 0x45 ⟨false, false, false, 0⟩ _ hrests
  rcases ends_iff.1 hmeets es (r, info') s' htalk halong with ⟨-, heq, -⟩ | ⟨hnot, -⟩
  · obtain ⟨rfl, rfl⟩ := Prod.mk.inj heq
    rcases ps2ControllerInit_reports htalk with ⟨-, hpresent, -, htest, hports⟩ | ⟨hfail, -⟩
    · exact ⟨es, _, htalk, hpresent, htest, hports.resolve_right fun hdual => absurd hdual.1 (by decide)⟩
    · exact absurd hfail (by decide)
  · exact absurd (by decide) hnot

end

end Icarus.Drivers
