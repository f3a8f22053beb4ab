/-
The calibration of the local APIC's timer (APIC.c): the loop that polls the PM timer, which has 24 or 32 bits and may
wrap around while it is polled, and the quotient of the two counts.
-/
import Icarus.Base.Counter
import Icarus.Base.Traces
import Icarus.Base.Word

namespace Icarus.Interrupts

open Icarus.Base

/-! ## The code -/

/-- `PM_TIMER_HZ`. -/
def pmTimerHz : Nat := 3579545

/-- `LAPIC_TIMER_DIV`. -/
def lapicTimerDiv : Nat := 0x3E0

/-- `LAPIC_LVT_TIMER`. -/
def lapicLvtTimer : Nat := 0x320

/-- `LAPIC_TIMER_INITCNT`. -/
def lapicTimerInitcnt : Nat := 0x380

/-- `LAPIC_TIMER_CURCNT`. -/
def lapicTimerCurcnt : Nat := 0x390

/-- `LAPIC_LVT_MASKED`. -/
def lapicLvtMasked : BitVec 32 := 0x10000

/-- An access to a device: a register of the local APIC, or the PM timer, mapped or behind a port. -/
inductive TimerEvent
  | lapicWrite (reg : Nat) (value : BitVec 32)
  | lapicRead (reg : Nat)
  | load (addr : Nat)
  | inportl (port : Nat)

/-- `lapic_write`. -/
def lapicWrite (reg : Nat) (value : BitVec 32) : Run TimerEvent Unit := .emit [.lapicWrite reg value]

/-- `lapic_read` of a register that holds `cur`. -/
def lapicRead (reg : Nat) (cur : BitVec 32) : Run TimerEvent (BitVec 32) := do
  Run.emit [.lapicRead reg]
  return cur

/-- `pm_read` of a timer that shows the bits `raw`. -/
def pmRead (raw : BitVec 32) (addr : Nat) (is32 isMmio : Bool) : Run TimerEvent (BitVec 32) := do
  Run.emit [if isMmio then .load addr else .inportl (u16 addr)]
  return if is32 then raw else raw &&& 0xFFFFFF#32

/-- The bits that a timer of either width counts in. -/
def pmMask (is32 : Bool) : BitVec 32 := if is32 then 0xFFFFFFFF#32 else 0xFFFFFF#32

/-- `wait`: 10 ms. -/
def pmWait : BitVec 32 := BitVec.ofNat 32 (pmTimerHz / 100)

/-- The polling loop, given what the timer shows at each read; read `i` is next. -/
def pollTimer (raw : Nat → BitVec 32) (addr : Nat) (is32 isMmio : Bool) (start : BitVec 32) :
    (fuel i : Nat) → Run TimerEvent (BitVec 32)
  | 0, _ => .fault .outOfFuel
  | fuel + 1, i => do
    let now ← pmRead (raw i) addr is32 isMmio
    let elapsed := (now - start) &&& pmMask is32
    if elapsed < pmWait then pollTimer raw addr is32 isMmio start fuel (i + 1) else return elapsed

/-- `lapic_ticks`. -/
def lapicTicks (cur : BitVec 32) : BitVec 64 := (0xFFFFFFFF#32 - cur).setWidth 64

/-- What is returned. -/
def ticksPerMs (cur elapsed : BitVec 32) : BitVec 32 :=
  ((lapicTicks cur * BitVec.ofNat 64 pmTimerHz) / (elapsed.setWidth 64 * 1000#64)).setWidth 32

/-- `calibrate_lapic_ticks_per_ms`, with the count `cur` that the local APIC has come down to. -/
def calibrateLapicTicksPerMs (raw : Nat → BitVec 32) (cur : BitVec 32) (pmAddr : Nat) (is32 isMmio : Bool) (fuel : Nat) :
    Run TimerEvent (BitVec 32) := do
  lapicWrite lapicTimerDiv 0x3
  lapicWrite lapicLvtTimer lapicLvtMasked
  let start ← pmRead (raw 0) pmAddr is32 isMmio
  lapicWrite lapicTimerInitcnt 0xFFFFFFFF
  let elapsed ← pollTimer raw pmAddr is32 isMmio start fuel 1
  let cur ← lapicRead lapicTimerCurcnt cur
  lapicWrite lapicTimerInitcnt 0
  return ticksPerMs cur elapsed

/-! ## The timer -/

/-- The number of bits the timer counts in. -/
def pmWidth (is32 : Bool) : Nat := if is32 then 32 else 24

/-- The timer stood at `count` at first, and `ticks k` later at poll `k`; what is above its bits may be anything. -/
structure Shows (raw : Nat → BitVec 32) (w count : Nat) (ticks : Nat → Nat) : Prop where
  start : (raw 0).toNat % 2 ^ w = count % 2 ^ w
  poll : ∀ k, (raw (k + 1)).toNat % 2 ^ w = (count + ticks k) % 2 ^ w

/-- What a calibration is to give: the ticks that passed until enough had, and the exact quotient, with nothing lost on
the way. -/
structure Calibrated (ticks : Nat → Nat) (cur elapsed r : BitVec 32) : Prop where
  passed : ∃ k, elapsed.toNat = ticks k ∧ ∀ j < k, ticks j < pmTimerHz / 100
  enough : pmTimerHz / 100 ≤ elapsed.toNat
  product : (0xFFFFFFFF - cur.toNat) * pmTimerHz < 2 ^ 64
  divisor : elapsed.toNat * 1000 ≠ 0
  quotient : r.toNat = (0xFFFFFFFF - cur.toNat) * pmTimerHz / (elapsed.toNat * 1000)

section
variable {raw : Nat → BitVec 32} {is32 isMmio : Bool} {addr count fuel i : Nat} {ticks : Nat → Nat} {start cur r : BitVec 32}

theorem pmMask_eq : pmMask is32 = BitVec.ofNat 32 (2 ^ pmWidth is32 - 1) := by
  cases is32 <;> rfl

/-- A value that is cut to the bits of the timer keeps what they count. -/
theorem pmRead_result (raw : BitVec 32) : ∃ now, (pmRead raw addr is32 isMmio).result = .ok now ∧
    now.toNat % 2 ^ pmWidth is32 = raw.toNat % 2 ^ pmWidth is32 := by
  cases is32 with
  | true => exact ⟨raw, rfl, rfl⟩
  | false =>
    refine ⟨raw &&& 0xFFFFFF#32, rfl, ?_⟩
    have hmask : (raw &&& 0xFFFFFF#32).toNat = raw.toNat % 2 ^ 24 := by
      rw [BitVec.toNat_and]
      exact Nat.and_two_pow_sub_one_eq_mod raw.toNat 24
    rw [hmask]
    exact Nat.mod_mod _ _

/-- One round of the loop reads the ticks modulo a turn of the timer. -/
theorem pollTimer_succ (addr : Nat) (isMmio : Bool) (h : Shows raw (pmWidth is32) count ticks)
    (hstart : start.toNat % 2 ^ pmWidth is32 = count % 2 ^ pmWidth is32) (fuel k : Nat) :
    ∃ elapsed : BitVec 32, elapsed.toNat = ticks k % 2 ^ pmWidth is32 ∧
      (pollTimer raw addr is32 isMmio start (fuel + 1) (k + 1)).result =
        if elapsed.toNat < pmTimerHz / 100 then (pollTimer raw addr is32 isMmio start fuel (k + 2)).result
        else .ok elapsed := by
  obtain ⟨now, hnow, hmod⟩ := @pmRead_result is32 isMmio addr (raw (k + 1))
  have hwidth : pmWidth is32 ≤ 32 := by cases is32 <;> decide
  refine ⟨(now - start) &&& pmMask is32, ?_, ?_⟩
  · rw [pmMask_eq]
    exact toNat_sub_and_mask hwidth (hmod.trans (h.poll k)) hstart
  · rw [pollTimer, Run.bind_of_ok hnow]
    dsimp only
    have hlt : (now - start) &&& pmMask is32 < pmWait ↔ ((now - start) &&& pmMask is32).toNat < pmTimerHz / 100 := Iff.rfl
    split_ifs with h1 h2 h2
    · rfl
    · exact absurd (hlt.1 h1) h2
    · exact absurd (hlt.2 h2) h1
    · rfl

/-- The loop leaves with the true number of ticks, at the first poll that finds enough of them. -/
theorem pollTimer_exact (hp : Polled (pmWidth is32) (pmTimerHz / 100) ticks) (h : Shows raw (pmWidth is32) count ticks)
    (hstart : start.toNat % 2 ^ pmWidth is32 = count % 2 ^ pmWidth is32) {k : Nat} {elapsed : BitVec 32}
    (hbefore : ∀ j < k, ticks j % 2 ^ pmWidth is32 < pmTimerHz / 100)
    (hret : (pollTimer raw addr is32 isMmio start fuel (k + 1)).result = .ok elapsed) :
    (∃ k, elapsed.toNat = ticks k ∧ ∀ j < k, ticks j < pmTimerHz / 100) ∧ pmTimerHz / 100 ≤ elapsed.toNat := by
  induction fuel generalizing k with
  | zero => cases hret
  | succ fuel ih =>
    obtain ⟨e, he, hround⟩ := pollTimer_succ addr isMmio h hstart fuel k
    rw [hround] at hret
    split_ifs at hret with hlt
    · refine ih (k := k + 1) (fun j hj => ?_) hret
      rcases Nat.lt_succ_iff_lt_or_eq.1 hj with hj | rfl
      · exact hbefore j hj
      · rwa [he] at hlt
    · cases hret
      refine ⟨⟨k, he.trans (hp.exact hbefore), fun j hj => ?_⟩, Nat.le_of_not_lt hlt⟩
      rw [← hp.exact fun i hi => hbefore i (hi.trans hj)]
      exact hbefore j hj

/-- A poll that finds enough ticks ends the loop. -/
theorem pollTimer_leaves (addr : Nat) (isMmio : Bool) (h : Shows raw (pmWidth is32) count ticks)
    (hstart : start.toNat % 2 ^ pmWidth is32 = count % 2 ^ pmWidth is32) {k n : Nat}
    (hmany : pmTimerHz / 100 ≤ ticks (k + n) % 2 ^ pmWidth is32) :
    ∃ elapsed, (pollTimer raw addr is32 isMmio start (n + 1) (k + 1)).result = .ok elapsed := by
  induction n generalizing k with
  | zero =>
    obtain ⟨e, he, hround⟩ := pollTimer_succ addr isMmio h hstart 0 k
    refine ⟨e, ?_⟩
    rw [hround, if_neg (by rw [he]; exact not_lt.2 hmany)]
  | succ n ih =>
    obtain ⟨e, he, hround⟩ := pollTimer_succ addr isMmio h hstart (n + 1) k
    rw [hround]
    split_ifs with hlt
    · exact ih (k := k + 1) (by rwa [show k + 1 + n = k + (n + 1) by omega])
    · exact ⟨e, rfl⟩

/-- What the function does apart from its accesses to the devices. -/
theorem calibrate_result :
    (calibrateLapicTicksPerMs raw cur addr is32 isMmio fuel).result = .ok r ↔
      ∃ start elapsed, (pmRead (raw 0) addr is32 isMmio).result = .ok start ∧
        (pollTimer raw addr is32 isMmio start fuel 1).result = .ok elapsed ∧ r = ticksPerMs cur elapsed := by
  unfold calibrateLapicTicksPerMs
  constructor
  · intro h
    obtain ⟨-, -, h⟩ := Run.bind_result_eq_ok.1 h
    obtain ⟨-, -, h⟩ := Run.bind_result_eq_ok.1 h
    obtain ⟨start, hstart, h⟩ := Run.bind_result_eq_ok.1 h
    obtain ⟨-, -, h⟩ := Run.bind_result_eq_ok.1 h
    obtain ⟨elapsed, helapsed, h⟩ := Run.bind_result_eq_ok.1 h
    obtain ⟨now, hnow, h⟩ := Run.bind_result_eq_ok.1 h
    obtain rfl : cur = now := Except.ok.inj hnow
    obtain ⟨-, -, h⟩ := Run.bind_result_eq_ok.1 h
    exact ⟨start, elapsed, hstart, helapsed, (Except.ok.inj h).symm⟩
  · rintro ⟨start, elapsed, hstart, helapsed, rfl⟩
    refine Run.bind_result_eq_ok.2 ⟨(), rfl, Run.bind_result_eq_ok.2 ⟨(), rfl, ?_⟩⟩
    refine Run.bind_result_eq_ok.2 ⟨start, hstart, Run.bind_result_eq_ok.2 ⟨(), rfl, ?_⟩⟩
    exact Run.bind_result_eq_ok.2 ⟨elapsed, helapsed, rfl⟩

theorem toNat_lapicTicks : (lapicTicks cur).toNat = 0xFFFFFFFF - cur.toNat := by
  have hlt := cur.isLt
  unfold lapicTicks
  rw [BitVec.toNat_setWidth, BitVec.toNat_sub, show (0xFFFFFFFF#32).toNat = 0xFFFFFFFF from rfl]
  omega

/-- No count is too large for the product. -/
theorem product_lt (cur : BitVec 32) : (0xFFFFFFFF - cur.toNat) * pmTimerHz < 2 ^ 64 := by
  unfold pmTimerHz
  omega

/-- The quotient fits into 32 bits, for every count and every number of ticks from `wait` on. -/
theorem toNat_ticksPerMs {elapsed : BitVec 32} (henough : pmTimerHz / 100 ≤ elapsed.toNat) :
    (ticksPerMs cur elapsed).toNat = (0xFFFFFFFF - cur.toNat) * pmTimerHz / (elapsed.toNat * 1000) := by
  have hlt := elapsed.isLt
  have hproduct := product_lt cur
  have hquotient : (0xFFFFFFFF - cur.toNat) * pmTimerHz / (elapsed.toNat * 1000) < 2 ^ 32 := by
    refine Nat.div_lt_of_lt_mul ?_
    unfold pmTimerHz at henough ⊢
    omega
  have hhz : (BitVec.ofNat 64 pmTimerHz).toNat = pmTimerHz := rfl
  have hthousand : (1000#64).toNat = 1000 := rfl
  unfold ticksPerMs
  rw [BitVec.toNat_setWidth, BitVec.toNat_udiv, BitVec.toNat_mul, BitVec.toNat_mul, toNat_lapicTicks,
    BitVec.toNat_setWidth, hhz, hthousand, Nat.mod_eq_of_lt hproduct, Nat.mod_eq_of_lt (show elapsed.toNat < 2 ^ 64 by omega),
    Nat.mod_eq_of_lt (show elapsed.toNat * 1000 < 2 ^ 64 by omega), Nat.mod_eq_of_lt hquotient]

/-- Whatever the timer stood at, at whatever ticks it is polled and whatever the local APIC counted: a calibration that
returns is exact, and it returns as soon as enough ticks have passed at a poll. -/
theorem calibration_exact (hp : Polled (pmWidth is32) (pmTimerHz / 100) ticks) (h : Shows raw (pmWidth is32) count ticks)
    (cur : BitVec 32) (addr : Nat) (isMmio : Bool) :
    (∀ fuel r, (calibrateLapicTicksPerMs raw cur addr is32 isMmio fuel).result = .ok r →
      ∃ start elapsed, (pmRead (raw 0) addr is32 isMmio).result = .ok start ∧
        (pollTimer raw addr is32 isMmio start fuel 1).result = .ok elapsed ∧ Calibrated ticks cur elapsed r) ∧
      ((∃ k, pmTimerHz / 100 ≤ ticks k) → ∃ fuel r, (calibrateLapicTicksPerMs raw cur addr is32 isMmio fuel).result = .ok r) := by
  obtain ⟨start, hread, hmod⟩ := @pmRead_result is32 isMmio addr (raw 0)
  have hstart := hmod.trans h.start
  constructor
  · intro fuel r hret
    obtain ⟨start', elapsed, hread', hpoll, rfl⟩ := calibrate_result.1 hret
    cases hread.symm.trans hread'
    obtain ⟨hpassed, henough⟩ := pollTimer_exact hp h hstart (fun j hj => absurd hj (Nat.not_lt_zero j)) hpoll
    refine ⟨start, elapsed, hread, hpoll, hpassed, henough, product_lt cur, ?_, toNat_ticksPerMs henough⟩
    unfold pmTimerHz at henough
    omega
  · rintro hmany
    -- the first poll at which enough ticks have passed reads them
    obtain ⟨k, henough, hfirst⟩ : ∃ k, pmTimerHz / 100 ≤ ticks k ∧ ∀ j < k, ticks j < pmTimerHz / 100 :=
      ⟨Nat.find hmany, Nat.find_spec hmany, fun j hj => not_le.1 (Nat.find_min hmany hj)⟩
    have hexact : ticks k % 2 ^ pmWidth is32 = ticks k :=
      hp.exact fun j hj => lt_of_le_of_lt (Nat.mod_le ..) (hfirst j hj)
    obtain ⟨elapsed, hpoll⟩ := pollTimer_leaves addr isMmio h hstart (k := 0) (n := k)
      (by rw [Nat.zero_add, hexact]; exact henough)
    exact ⟨k + 1, _, calibrate_result.2 ⟨start, elapsed, hread, hpoll, rfl⟩⟩

end

/-- A timer of 24 bits that wraps around before the first of two polls. -/
theorem calibration_exact_wrap : ∃ fuel r start elapsed,
    (calibrateLapicTicksPerMs (fun i => BitVec.ofNat 32 (0xFFFF9C + 20000 * i)) 0xFFF00000 0x608 false false fuel).result =
        .ok r ∧
      (pollTimer (fun i => BitVec.ofNat 32 (0xFFFF9C + 20000 * i)) 0x608 false false start fuel 1).result = .ok elapsed ∧
        Calibrated (fun k => 20000 * (k + 1)) 0xFFF00000 elapsed r := by
  have hpolled : Polled (pmWidth false) (pmTimerHz / 100) fun k => 20000 * (k + 1) := by
    refine ⟨fun i j hij => Nat.mul_le_mul_left _ (Nat.succ_le_succ hij), by decide, fun k => ?_⟩
    rw [show 20000 * (k + 1 + 1) - 20000 * (k + 1) = 20000 by omega]
    decide
  have hshows : Shows (fun i => BitVec.ofNat 32 (0xFFFF9C + 20000 * i)) (pmWidth false) 0xFFFF9C fun k => 20000 * (k + 1) := by
    refine ⟨rfl, fun k => ?_⟩
    rw [BitVec.toNat_ofNat]
    exact Nat.mod_mod_of_dvd _ (by decide)
  obtain ⟨hexact, hleaves⟩ := calibration_exact hpolled hshows 0xFFF00000 0x608 false
  obtain ⟨fuel, r, hret⟩ := hleaves ⟨1, by decide⟩
  obtain ⟨start, elapsed, -, hpoll, hcalibrated⟩ := hexact fuel r hret
  exact ⟨fuel, r, start, elapsed, hret, hpoll, hcalibrated⟩

end Icarus.Interrupts
