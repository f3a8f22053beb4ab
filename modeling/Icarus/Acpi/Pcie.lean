/-
The base address registers of a PCI function (PCIE.c, ACPI_helpers.h): what the loop of `discoverPCIE` over the six
registers makes of a function whose registers are those of memory windows.
-/
import Icarus.Base.Registers
import Icarus.Memory.Mmio
import Icarus.Processes.Thread

namespace Icarus.Acpi

open Icarus.Base Icarus.Memory Icarus.Processes

/-! ## The registers -/

/-- The registers of a function from its first BAR on, also those behind the six. -/
abbrev BarRegs : Type := Nat → Register 32

/-- `bar[i] = v`. -/
def writeBar (regs : BarRegs) (i : Nat) (v : BitVec 32) : BarRegs := Function.update regs i ((regs i).write v)

/-- `BAR_FLAG_MASK`. -/
def barFlagMask : BitVec 32 := 0xFFFFFFF0

/-- `bar_is_64bit`. The flags below and the address above the type are not masked out. -/
def barIs64bit (regs : BarRegs) (bar : Nat) : Bool := (regs bar).value >>> 1 = 2

/-- `decode_phys_BAR`. -/
def decodePhysBar (regs : BarRegs) (bar : Nat) : BitVec 64 :=
  let barL := (regs bar).value
  if barL &&& 1 ≠ 0 then BitVec.ofNat 64 frameAllocFailed
  else
    let barType := (barL >>> 1) &&& 3
    if barType = 1 then BitVec.ofNat 64 frameAllocFailed
    else if barType = 0 then (barL &&& barFlagMask).setWidth 64
    else (regs (bar + 1)).value.setWidth 64 <<< 32 ||| (barL &&& barFlagMask).setWidth 64

/-- `encode_phys_BAR`. -/
def encodePhysBar (regs : BarRegs) (bar : Nat) (v : BitVec 64) : BarRegs :=
  writeBar (writeBar regs bar (v.setWidth 32)) (bar + 1) ((v >>> 32).setWidth 32)

/-! ## The loop -/

/-- A call of `map_mmio`. -/
structure MmioCall where
  physAddr : Nat
  size : Nat
  flags : Nat
  deriving DecidableEq, Repr

/-- What the loop did: the registers it left, at which of them it asked `bar_is_64bit` and what the answer was, and its
calls of `map_mmio`. -/
structure BarRun where
  regs : BarRegs
  visits : List (Nat × Bool)
  calls : List MmioCall

/-- A round in front of what follows. -/
def BarRun.round (bar : Nat) (is64bit : Bool) (addr size : BitVec 32) (r : BarRun) : BarRun :=
  { r with
    visits := (bar, is64bit) :: r.visits
    calls := ⟨addr.toNat, size.toNat, writeable ||| cacheDisabled⟩ :: r.calls }

/-- The loop over the registers from `bar` on. Behind a register of 64 bits the `goto` leaves the block in which `addr`
and `size` were computed and enters the scope of two others that were not: the call gets what happens to be in
their places, `stale`. -/
def barLoop (stale : Nat → BitVec 32 × BitVec 32) : (fuel bar : Nat) → BarRegs → BarRun
  | 0, _, regs => ⟨regs, [], []⟩
  | fuel + 1, bar, regs =>
    if bar < 6 then
      if barIs64bit regs bar then
        let addr := decodePhysBar regs bar
        let regs := writeBar (writeBar regs bar (BitVec.allOnes 32)) (bar + 1) (BitVec.allOnes 32)
        -- the size that is decoded here is used for nothing
        let regs := encodePhysBar regs bar addr
        (barLoop stale fuel (bar + 2) regs).round bar true (stale bar).1 (stale bar).2
      else
        let addr := (regs bar).value
        let regs := writeBar regs bar (BitVec.allOnes 32)
        let size := ~~~((regs bar).value &&& ~~~0xF) + 1
        let regs := writeBar regs bar addr
        (barLoop stale fuel (bar + 1) regs).round bar false addr size
    else ⟨regs, [], []⟩

/-- The BAR loop of `discoverPCIE`; every round moves on by a register or two. -/
def discoverBars (stale : Nat → BitVec 32 × BitVec 32) (regs : BarRegs) : BarRun := barLoop stale 6 0 regs

/-! ## Functions with memory windows -/

/-- A window of `2 ^ order` bytes in an address space of `bits` bits. -/
structure MemWindow (bits : Nat) where
  prefetchable : Bool
  order : Nat
  base : Nat
  four_le : 4 ≤ order
  order_lt : order < bits
  aligned : base % 2 ^ order = 0
  base_lt : base < 2 ^ bits

/-- What a function asks for with one register or two. -/
inductive Bar
  | absent
  | mem32 (window : MemWindow 32)
  | mem64 (window : MemWindow 64)

/-- The flags of a window with the type bits `type`. -/
def MemWindow.flags {bits : Nat} (window : MemWindow bits) (type : Nat) : Nat :=
  2 * type + if window.prefetchable then 8 else 0

/-- The registers are those of a function that asks for `bars` from register `i` on: what can be changed of a window's
address is its bits from the order on. -/
def Behave (regs : BarRegs) : (i : Nat) → List Bar → Prop
  | i, [] => i = 6
  | i, .absent :: bars => regs i = ⟨0, 0⟩ ∧ Behave regs (i + 1) bars
  | i, .mem32 w :: bars =>
    regs i = ⟨BitVec.ofNat 32 (w.base + w.flags 0), upperBits 32 w.order⟩ ∧ Behave regs (i + 1) bars
  | i, .mem64 w :: bars =>
    regs i = ⟨BitVec.ofNat 32 (w.base + w.flags 2), (upperBits 64 w.order).setWidth 32⟩ ∧
      regs (i + 1) = ⟨BitVec.ofNat 32 (w.base / 2 ^ 32), (upperBits 64 w.order >>> 32).setWidth 32⟩ ∧
      Behave regs (i + 2) bars

/-- The registers at which the windows start. -/
def barStarts : (i : Nat) → List Bar → List Nat
  | _, [] => []
  | i, .absent :: bars => i :: barStarts (i + 1) bars
  | i, .mem32 _ :: bars => i :: barStarts (i + 1) bars
  | i, .mem64 _ :: bars => i :: barStarts (i + 2) bars

/-- The call of `map_mmio` for a window. -/
def Bar.call : Bar → Option MmioCall
  | .absent => none
  | .mem32 w => some ⟨w.base, 2 ^ w.order, writeable ||| cacheDisabled⟩
  | .mem64 w => some ⟨w.base, 2 ^ w.order, writeable ||| cacheDisabled⟩

/-- `decode_phys_BAR` reads the register as the lower half of a window of 64 bits. -/
def decodesAs64 (v : BitVec 32) : Prop := v &&& 1 = 0 ∧ (v >>> 1) &&& 3 ≠ 1 ∧ (v >>> 1) &&& 3 ≠ 0

/-- The loop did as it should: it takes registers for what `decode_phys_BAR` takes them for, goes from window to window,
leaves all registers as they were, and maps the windows. -/
structure BarsExact (bars : List Bar) (regs : BarRegs) (r : BarRun) : Prop where
  classified : ∀ v ∈ r.visits, v.2 = true ↔ decodesAs64 (regs v.1).value
  paired : r.visits.map Prod.fst = barStarts 0 bars
  restored : r.regs = regs
  mapped : r.calls = bars.filterMap Bar.call

/-- A window of 32 bits that is not prefetchable. -/
def Bar.Plain (bar : Bar) : Prop := ∃ w : MemWindow 32, bar = .mem32 w ∧ w.prefetchable = false

/-! ## One register -/

/-- The size the loop reads from a register of 32 bits. -/
def sizeRead (r : Register 32) : BitVec 32 := ~~~((r.write (BitVec.allOnes 32)).value &&& ~~~0xF) + 1

section
variable {regs : BarRegs} {stale : Nat → BitVec 32 × BitVec 32} {fuel i : Nat} {bars : List Bar} {bar : Bar}

/-- Ones are written and taken back. -/
theorem writeBar_restore (regs : BarRegs) (i : Nat) (x : BitVec 32) :
    writeBar (writeBar regs i x) i (regs i).value = regs := by
  unfold writeBar
  rw [Function.update_self, Function.update_idem, Register.write_write, Register.write_value, Function.update_eq_self]

/-- A round that takes its register for one of 32 bits. -/
theorem barLoop_round32 (hi : i < 6) (h : barIs64bit regs i = false) :
    barLoop stale (fuel + 1) i regs =
      (barLoop stale fuel (i + 1) regs).round i false (regs i).value (sizeRead (regs i)) := by
  rw [barLoop, if_pos hi, if_neg (by rw [h]; decide)]
  dsimp only
  rw [writeBar_restore]
  unfold writeBar sizeRead
  rw [Function.update_self]

/-- A round that takes its register for one of 64 bits calls `map_mmio` with what is left in two places. -/
theorem barLoop_round64 (hi : i < 6) (h : barIs64bit regs i = true) :
    ∃ r : BarRun, barLoop stale (fuel + 1) i regs = r.round i true (stale i).1 (stale i).2 := by
  rw [barLoop, if_pos hi, if_pos h]
  exact ⟨_, rfl⟩

theorem toNat_shiftRight_one (v : BitVec 32) : (v >>> 1).toNat = v.toNat / 2 := by
  rw [BitVec.toNat_ushiftRight, Nat.shiftRight_eq_div_pow, pow_one]

/-- Only two values are taken for a register of 64 bits. -/
theorem barIs64bit_iff : barIs64bit regs i = true ↔ (regs i).value.toNat = 4 ∨ (regs i).value.toNat = 5 := by
  unfold barIs64bit
  rw [decide_eq_true_eq, ← BitVec.toNat_inj, toNat_shiftRight_one]
  show _ / 2 = 2 ↔ _
  omega

theorem barIs64bit_of_mod (h : (regs i).value.toNat % 8 = 0) : barIs64bit regs i = false := by
  rw [← Bool.not_eq_true, barIs64bit_iff]
  omega

theorem not_decodesAs64 {v : BitVec 32} (h : v.toNat % 8 = 0) : ¬decodesAs64 v := by
  rintro ⟨-, -, hne⟩
  apply hne
  rw [← BitVec.toNat_inj, BitVec.toNat_and, toNat_shiftRight_one]
  show v.toNat / 2 &&& 3 = 0
  rw [show 3 = 2 ^ 2 - 1 from rfl, Nat.and_two_pow_sub_one_eq_mod]
  omega

/-! ## Windows in registers -/

theorem MemWindow.base_mod {bits : Nat} (w : MemWindow bits) : w.base % 16 = 0 := by
  have hdvd : 2 ^ 4 ∣ w.base := (Nat.pow_dvd_pow 2 w.four_le).trans (Nat.dvd_of_mod_eq_zero w.aligned)
  omega

theorem MemWindow.flags_lt {bits : Nat} (w : MemWindow bits) {type : Nat} (h : type < 4) : w.flags type < 16 := by
  unfold flags
  split_ifs <;> omega

/-- The low four bits of a window's register are its flags. -/
theorem MemWindow.value_mod {bits : Nat} (w : MemWindow bits) {type : Nat} (h : type < 4) :
    (BitVec.ofNat 32 (w.base + w.flags type)).toNat % 16 = w.flags type := by
  have hbase := w.base_mod
  have hflags := w.flags_lt h
  rw [BitVec.toNat_ofNat]
  omega

/-- The size is read back from a register with a window that is not prefetchable. -/
theorem MemWindow.sizeRead_eq (w : MemWindow 32) (h : w.prefetchable = false) :
    (BitVec.ofNat 32 (w.base + w.flags 0)).toNat = w.base ∧
      (sizeRead ⟨BitVec.ofNat 32 (w.base + w.flags 0), upperBits 32 w.order⟩).toNat = 2 ^ w.order := by
  have hflags : w.flags 0 = 0 := by
    unfold flags
    rw [h]
    rfl
  have hlt := w.order_lt
  have hvalue : (BitVec.ofNat 32 (w.base + w.flags 0)).toNat = w.base := by
    rw [hflags, BitVec.toNat_ofNat, Nat.add_zero, Nat.mod_eq_of_lt w.base_lt]
  refine ⟨hvalue, ?_⟩
  have hupper : upperBits 32 w.order &&& ~~~15#32 = upperBits 32 w.order := by
    have h4 := w.four_le
    generalize w.order = order at h4 hlt
    interval_cases order <;> decide
  unfold sizeRead
  rw [Register.write_allOnes]
  dsimp only
  rw [and_not_upperBits hlt, hvalue, w.aligned, BitVec.ofNat_eq_ofNat, BitVec.or_zero, hupper, not_upperBits_add_one,
    BitVec.toNat_twoPow, Nat.mod_eq_of_lt (Nat.pow_lt_pow_right (by decide) hlt)]

/-! ## All registers -/

theorem Behave.le : ∀ {bars : List Bar} {i : Nat}, Behave regs i bars → i ≤ 6
  | [], _, h => Nat.le_of_eq h
  | .absent :: _, i, h => by
    have := h.2.le
    omega
  | .mem32 _ :: _, i, h => by
    have := h.2.le
    omega
  | .mem64 _ :: _, i, h => by
    have := h.2.2.le
    omega

/-- A function with six windows of 32 bits that are not prefetchable comes out right. -/
theorem barLoop_plain : ∀ {bars : List Bar} {i fuel : Nat}, Behave regs i bars → (∀ b ∈ bars, b.Plain) → i + fuel = 6 →
    (barLoop stale fuel i regs).regs = regs ∧
      (barLoop stale fuel i regs).visits = (barStarts i bars).map (·, false) ∧
      (barLoop stale fuel i regs).calls = bars.filterMap Bar.call ∧
      ∀ j ∈ barStarts i bars, ¬decodesAs64 (regs j).value
  | [], i, fuel, h, _, hfuel => by
    have h6 : i = 6 := h
    obtain rfl : fuel = 0 := by omega
    exact ⟨rfl, rfl, rfl, fun j hj => (nomatch hj)⟩
  | b :: bars, i, fuel, h, hplain, hfuel => by
    obtain ⟨w, rfl, hw⟩ := hplain b List.mem_cons_self
    obtain ⟨hreg, hrest⟩ := h
    have hle := hrest.le
    obtain ⟨fuel, rfl⟩ : ∃ n, fuel = n + 1 := ⟨fuel - 1, by omega⟩
    obtain ⟨h1, h2, h3, h4⟩ := barLoop_plain hrest (fun c hc => hplain c (List.mem_cons_of_mem _ hc))
      (show i + 1 + fuel = 6 by omega)
    obtain ⟨hvalue, hsize⟩ := w.sizeRead_eq hw
    have hmod : (regs i).value.toNat % 8 = 0 := by
      have := w.base_mod
      rw [hreg, hvalue]
      omega
    rw [barLoop_round32 (by omega) (barIs64bit_of_mod hmod), hreg]
    unfold BarRun.round barStarts
    dsimp only
    rw [hvalue, hsize, h2, h3]
    exact ⟨h1, rfl, rfl, List.forall_mem_cons.2 ⟨not_decodesAs64 hmod, h4⟩⟩

/-- What is true of the call for any window: its address has no flags, and it maps something. -/
def MmioCall.Proper (c : MmioCall) : Prop := c.physAddr % 16 = 0 ∧ 0 < c.size

theorem Bar.call_proper {c : MmioCall} (h : bar.call = some c) : c.Proper := by
  cases bar with
  | absent => cases h
  | mem32 w =>
    cases h
    exact ⟨w.base_mod, Nat.two_pow_pos _⟩
  | mem64 w =>
    cases h
    exact ⟨w.base_mod, Nat.two_pow_pos _⟩

/-- Any other register leads to a call that is none for a window: one for nothing, one with flags in its address, or one
with what is left in two places. -/
theorem plain_of_proper : ∀ {bars : List Bar} {i fuel : Nat}, Behave regs i bars → i + fuel = 6 →
    (∀ stale, ∀ c ∈ (barLoop stale fuel i regs).calls, c.Proper) → ∀ b ∈ bars, b.Plain
  | [], _, _, _, _, _ => fun b hb => (nomatch hb)
  | .absent :: bars, i, fuel, h, hfuel, hall => by
    obtain ⟨hreg, hrest⟩ := h
    have hle := hrest.le
    obtain ⟨fuel, rfl⟩ : ∃ n, fuel = n + 1 := ⟨fuel - 1, by omega⟩
    have hproper := hall (fun _ => (0, 0))
    rw [barLoop_round32 (by omega) (barIs64bit_of_mod (by rw [hreg]; rfl)), hreg] at hproper
    exact absurd (hproper _ List.mem_cons_self).2 (by decide)
  | .mem32 w :: bars, i, fuel, h, hfuel, hall => by
    obtain ⟨hreg, hrest⟩ := h
    have hle := hrest.le
    obtain ⟨fuel, rfl⟩ : ∃ n, fuel = n + 1 := ⟨fuel - 1, by omega⟩
    have hmod : (regs i).value.toNat % 16 = w.flags 0 := by
      rw [hreg]
      exact w.value_mod (by decide)
    have hflags : w.flags 0 % 8 = 0 := by
      unfold MemWindow.flags
      split_ifs <;> rfl
    have hround : ∀ stale, barLoop stale (fuel + 1) i regs = _ := fun stale =>
      barLoop_round32 (by omega) (barIs64bit_of_mod (by omega))
    refine List.forall_mem_cons.2 ⟨⟨w, rfl, ?_⟩, plain_of_proper hrest (show i + 1 + fuel = 6 by omega) fun stale c hc => ?_⟩
    · have hproper := hall fun _ => (0, 0)
      rw [hround] at hproper
      have haddr := (hproper _ List.mem_cons_self).1
      dsimp only at haddr
      rw [hmod] at haddr
      unfold MemWindow.flags at haddr
      cases hp : w.prefetchable with
      | false => rfl
      | true =>
        rw [hp] at haddr
        cases haddr
    · have hproper := hall stale
      rw [hround] at hproper
      exact hproper c (List.mem_cons_of_mem _ hc)
  | .mem64 w :: bars, i, fuel, h, hfuel, hall => by
    obtain ⟨hreg, -, hrest⟩ := h
    have hle := hrest.le
    obtain ⟨fuel, rfl⟩ : ∃ n, fuel = n + 1 := ⟨fuel - 1, by omega⟩
    exfalso
    have hproper := hall fun _ => (1, 1)
    cases h64 : barIs64bit regs i with
    | true =>
      obtain ⟨r, hr⟩ := @barLoop_round64 regs (fun _ => (1, 1)) fuel i (by omega) h64
      rw [hr] at hproper
      exact absurd (hproper _ List.mem_cons_self).1 (by decide)
    | false =>
      -- the register is taken for one of 32 bits, and its type for a part of the address
      have hmod : (regs i).value.toNat % 16 = w.flags 2 := by
        rw [hreg]
        exact w.value_mod (by decide)
      rw [barLoop_round32 (by omega) h64] at hproper
      have haddr := (hproper _ List.mem_cons_self).1
      dsimp only at haddr
      have hpos : w.flags 2 ≠ 0 := by
        unfold MemWindow.flags
        omega
      exact hpos (hmod.symm.trans haddr)

/-- Where every call is one for a window, all registers are those of plain windows. -/
theorem BarsExact.plain (h : Behave regs 0 bars) (hall : ∀ stale, BarsExact bars regs (discoverBars stale regs)) :
    ∀ b ∈ bars, b.Plain := by
  refine plain_of_proper h (rfl : 0 + 6 = 6) fun stale c hc => ?_
  have hmapped : (barLoop stale 6 0 regs).calls = bars.filterMap Bar.call := (hall stale).mapped
  rw [hmapped] at hc
  obtain ⟨b, -, hb⟩ := List.mem_filterMap.1 hc
  exact Bar.call_proper hb

/-- The loop does as it should, whatever is left in the two places, exactly if the function has six windows of 32 bits
that are not prefetchable. -/
theorem bars_exact_iff (h : Behave regs 0 bars) :
    (∀ stale, BarsExact bars regs (discoverBars stale regs)) ↔ ∀ b ∈ bars, b.Plain := by
  refine ⟨BarsExact.plain h, fun hplain stale => ?_⟩
  obtain ⟨h1, h2, h3, h4⟩ := @barLoop_plain regs stale bars 0 6 h hplain rfl
  unfold discoverBars
  refine ⟨fun v hv => ?_, ?_, h1, h3⟩
  · rw [h2] at hv
    obtain ⟨j, hj, rfl⟩ := List.mem_map.1 hv
    exact iff_of_false Bool.false_ne_true (h4 j hj)
  · rw [h2, List.map_map]
    exact List.map_id _

end

/-- A page of memory at 0xFE000000. -/
def pageWindow : MemWindow 32 := ⟨false, 12, 0xFE000000, by decide, by decide, by decide, by decide⟩

/-- Six registers for that page. -/
def pageRegs : BarRegs := fun _ => ⟨BitVec.ofNat 32 (pageWindow.base + pageWindow.flags 0), upperBits 32 pageWindow.order⟩

theorem bars_exact_pages : Behave pageRegs 0 (List.replicate 6 (.mem32 pageWindow)) ∧
    ((∀ stale, BarsExact (List.replicate 6 (.mem32 pageWindow)) pageRegs (discoverBars stale pageRegs)) ↔
      ∀ b ∈ List.replicate 6 (Bar.mem32 pageWindow), b.Plain) :=
  have h : Behave pageRegs 0 (List.replicate 6 (.mem32 pageWindow)) := ⟨rfl, rfl, rfl, rfl, rfl, rfl, rfl⟩
  ⟨h, bars_exact_iff h⟩

/-- The registers of a disk: 16 KiB at 0xFEBF0000 in the first two of them, as a window of 64 bits. -/
def diskWindow : MemWindow 64 := ⟨false, 14, 0xFEBF0000, by decide, by decide, by decide, by decide⟩

/-- Its six registers: the window takes two, four are absent. -/
def diskBars : List Bar := [.mem64 diskWindow, .absent, .absent, .absent, .absent]

/-- What the registers answer. -/
def diskRegs : BarRegs
  | 0 => ⟨BitVec.ofNat 32 (diskWindow.base + diskWindow.flags 2), (upperBits 64 diskWindow.order).setWidth 32⟩
  | 1 => ⟨BitVec.ofNat 32 (diskWindow.base / 2 ^ 32), (upperBits 64 diskWindow.order >>> 32).setWidth 32⟩
  | _ => ⟨0, 0⟩

/-- `bar_is_64bit` compares all bits above the lowest, so that the window is not recognised once it has an address. -/
theorem diskBars_not_exact : Behave diskRegs 0 diskBars ∧
    ¬∀ stale, BarsExact diskBars diskRegs (discoverBars stale diskRegs) := by
  have h : Behave diskRegs 0 diskBars := ⟨rfl, rfl, rfl, rfl, rfl, rfl, rfl⟩
  refine ⟨h, fun hall => ?_⟩
  obtain ⟨w, hw, -⟩ := BarsExact.plain h hall (.mem64 diskWindow) List.mem_cons_self
  cases hw

end Icarus.Acpi
