/-
The I/O APICs and how their pins are routed (APIC.c): a chip shows one register at a time in a window, so that an entry
of its redirection table is written in four stores, and what the chip does between them depends on the old entry.
-/
import Icarus.Base.Registers

namespace Icarus.Interrupts

open Icarus.Base

/-! ## The chips -/

/-- An I/O APIC: the number of the register in the window, and the registers, some bits of which cannot be written. -/
structure IoApicChip where
  select : BitVec 8
  regs : BitVec 8 → Register 32

/-- `IO_REG_SEL`. -/
def ioRegSel : Nat := 0x0

/-- `IO_WIN`. -/
def ioWin : Nat := 0x10

/-- A store of 32 bits to the memory of a device. -/
structure MmioStore where
  addr : Nat
  value : BitVec 32
  deriving DecidableEq, Repr

/-- A store at an offset into the page of the chip. -/
def IoApicChip.store (c : IoApicChip) (offset : Nat) (v : BitVec 32) : IoApicChip :=
  if offset = ioRegSel then { c with select := v.setWidth 8 }
  else if offset = ioWin then { c with regs := Function.update c.regs c.select ((c.regs c.select).write v) }
  else c

/-- The chips of the machine, by where their registers are mapped. -/
abbrev Chips := Nat → IoApicChip

/-- Each chip sees the stores to its own page. -/
def Chips.store (s : Chips) (e : MmioStore) : Chips := fun base =>
  if base ≤ e.addr then (s base).store (e.addr - base) e.value else s base

/-- What the window of a chip shows. -/
def Chips.window (s : Chips) (base : Nat) : BitVec 32 := ((s base).regs (s base).select).value

/-! ## The code -/

/-- `IOAPIC_RELOC_BASE_INDEX`. -/
def ioapicRelocBaseIndex : Int := 0x10

/-- `ioapic_redirection_entry_t`, by its two words. -/
@[ext] structure RedirectionEntry where
  low : BitVec 32
  high : BitVec 32
  deriving DecidableEq, Repr

/-- `ioapic_write`; the number of the register is cut to 8 bits when it is passed. -/
def ioapicWrite (base : Nat) (reg : Int) (val : BitVec 32) : List MmioStore :=
  [⟨base + ioRegSel, (BitVec.ofInt 8 reg).setWidth 32⟩, ⟨base + ioWin, val⟩]

/-- `ioapic_read`. -/
def ioapicRead (base : Nat) (reg : Int) (s : Chips) : BitVec 32 × Chips :=
  let s := s.store ⟨base + ioRegSel, (BitVec.ofInt 8 reg).setWidth 32⟩
  (s.window base, s)

/-- `ioapic_route`. -/
def ioapicRoute (base : Nat) (pin : Int) (vec apicId : BitVec 8) (activeLow level : Bool) : List MmioStore :=
  let low := vec.setWidth 32 ||| (BitVec.ofBool activeLow).setWidth 32 <<< 13 |||
    (BitVec.ofBool level).setWidth 32 <<< 15
  ioapicWrite base (ioapicRelocBaseIndex + 1 + 2 * pin) (apicId.setWidth 32 <<< 24) ++
    ioapicWrite base (ioapicRelocBaseIndex + 2 * pin) low

/-- `ioapic_set`. -/
def ioapicSet (base : Nat) (pin : Int) (redir : RedirectionEntry) : List MmioStore :=
  ioapicWrite base (ioapicRelocBaseIndex + 1 + 2 * pin) redir.high ++
    ioapicWrite base (ioapicRelocBaseIndex + 2 * pin) redir.low

/-- A call that routes a pin. -/
inductive RouteCall
  | route (base : Nat) (pin : Int) (vec apicId : BitVec 8) (activeLow level : Bool)
  | set (base : Nat) (pin : Int) (redir : RedirectionEntry)

namespace RouteCall

/-- The stores of the call. -/
def stores : RouteCall → List MmioStore
  | route base pin vec apicId activeLow level => ioapicRoute base pin vec apicId activeLow level
  | set base pin redir => ioapicSet base pin redir

/-- The chip a call is for. -/
def base : RouteCall → Nat
  | route base .. => base
  | set base .. => base

/-- The pin a call is for. -/
def pin : RouteCall → Int
  | route _ pin .. => pin
  | set _ pin _ => pin

/-- What the call writes. -/
def entry : RouteCall → RedirectionEntry
  | route _ _ vec apicId activeLow level =>
    ⟨vec.setWidth 32 ||| (BitVec.ofBool activeLow).setWidth 32 <<< 13 ||| (BitVec.ofBool level).setWidth 32 <<< 15,
      apicId.setWidth 32 <<< 24⟩
  | set _ _ redir => redir

theorem stores_eq (c : RouteCall) : c.stores = ioapicSet c.base c.pin c.entry := by cases c <;> rfl

end RouteCall

/-- A run of calls. -/
def routeAll (cs : List RouteCall) (s : Chips) : Chips := (cs.flatMap RouteCall.stores).foldl Chips.store s

/-! ## Entries -/

namespace RedirectionEntry

variable (e : RedirectionEntry)

/-- `vector`. -/
def vector : BitVec 8 := e.low.extractLsb' 0 8

/-- `delvMode`. -/
def delvMode : BitVec 3 := e.low.extractLsb' 8 3

/-- `destMode`. -/
def destMode : Bool := e.low.getLsbD 11

/-- `pinPolarity`. -/
def pinPolarity : Bool := e.low.getLsbD 13

/-- `triggerMode`. -/
def triggerMode : Bool := e.low.getLsbD 15

/-- `mask`. -/
def mask : Bool := e.low.getLsbD 16

/-- `destination`. -/
def destination : BitVec 8 := e.high.extractLsb' 24 8

end RedirectionEntry

/-- The first of the two registers of a pin. -/
def lowRegister (pin : Nat) : BitVec 8 := BitVec.ofNat 8 (0x10 + 2 * pin)

/-- The second register of a pin. -/
def highRegister (pin : Nat) : BitVec 8 := BitVec.ofNat 8 (0x11 + 2 * pin)

/-- How many pins have their registers among the 256 of a chip. -/
def maxPins : Nat := 120

/-- The entry of a pin as the chip has it. -/
def IoApicChip.entry (c : IoApicChip) (pin : Nat) : RedirectionEntry :=
  ⟨(c.regs (lowRegister pin)).value, (c.regs (highRegister pin)).value⟩

/-- What the entry becomes when `e` is written to it. -/
def IoApicChip.written (c : IoApicChip) (pin : Nat) (e : RedirectionEntry) : RedirectionEntry :=
  ⟨((c.regs (lowRegister pin)).write e.low).value, ((c.regs (highRegister pin)).write e.high).value⟩

/-- Where the interrupts of a pin go to, which is nowhere while it is masked. -/
def IoApicChip.delivers (c : IoApicChip) (pin : Nat) : Option RedirectionEntry :=
  if (c.entry pin).mask then none else some (c.entry pin)

/-- The entry is for interrupts of this vector, which go as fixed ones to this processor. -/
structure RedirectionEntry.Aims (e : RedirectionEntry) (vec apicId : BitVec 8) (activeLow level : Bool) : Prop where
  vector : e.vector = vec
  delvMode : e.delvMode = 0
  destMode : e.destMode = false
  pinPolarity : e.pinPolarity = activeLow
  triggerMode : e.triggerMode = level
  mask : e.mask = false
  destination : e.destination = apicId

/-- The chip lets the fields of the entry be written: those below the status bit, the polarity, the trigger mode and the
mask, and the destination. -/
structure IoApicChip.Routable (c : IoApicChip) (pin : Nat) : Prop where
  low : (c.regs (lowRegister pin)).writable &&& 0x1AFFF#32 = 0x1AFFF#32
  high : (c.regs (highRegister pin)).writable &&& 0xFF000000#32 = 0xFF000000#32

section
variable {p q : Nat}

theorem bit_of_mask {x mask : BitVec 32} {i : Nat} (h : x &&& mask = mask) (hi : mask.getLsbD i = true) :
    x.getLsbD i = true := by
  have hbit := congrArg (BitVec.getLsbD · i) h
  simp only [BitVec.getLsbD_and, hi, Bool.and_true] at hbit
  exact hbit

/-- What `ioapic_route` writes, read field by field. -/
theorem IoApicChip.Routable.aims {c : IoApicChip} (h : c.Routable p) (base : Nat) (pin : Int) (vec apicId : BitVec 8)
    (activeLow level : Bool) :
    (c.written p (RouteCall.route base pin vec apicId activeLow level).entry).Aims vec apicId activeLow level := by
  have hlow := fun i => bit_of_mask h.low (i := i)
  have hhigh := fun i => bit_of_mask h.high (i := i)
  unfold IoApicChip.written RouteCall.entry
  refine ⟨?_, ?_, ?_, ?_, ?_, ?_, ?_⟩
  · apply BitVec.eq_of_getLsbD_eq
    intro i hi
    unfold RedirectionEntry.vector
    dsimp only
    rw [BitVec.getLsbD_extractLsb', Register.getLsbD_write _ _ (hlow _ (by interval_cases i <;> rfl))]
    interval_cases i <;> simp
  · apply BitVec.eq_of_getLsbD_eq
    intro i hi
    unfold RedirectionEntry.delvMode
    dsimp only
    rw [BitVec.getLsbD_extractLsb', Register.getLsbD_write _ _ (hlow _ (by interval_cases i <;> rfl))]
    interval_cases i <;> simp
  · unfold RedirectionEntry.destMode
    rw [Register.getLsbD_write _ _ (hlow 11 rfl)]
    simp
  · unfold RedirectionEntry.pinPolarity
    rw [Register.getLsbD_write _ _ (hlow 13 rfl)]
    simp
  · unfold RedirectionEntry.triggerMode
    rw [Register.getLsbD_write _ _ (hlow 15 rfl)]
    simp
  · unfold RedirectionEntry.mask
    rw [Register.getLsbD_write _ _ (hlow 16 rfl)]
    simp
  · apply BitVec.eq_of_getLsbD_eq
    intro i hi
    unfold RedirectionEntry.destination
    dsimp only
    rw [BitVec.getLsbD_extractLsb', Register.getLsbD_write _ _ (hhigh _ (by interval_cases i <;> rfl))]
    interval_cases i <;> simp

theorem lowRegister_inj (hp : p < maxPins) (hq : q < maxPins) (h : lowRegister p = lowRegister q) : p = q := by
  unfold maxPins at hp hq
  have heq := congrArg BitVec.toNat h
  unfold lowRegister at heq
  rw [BitVec.toNat_ofNat, BitVec.toNat_ofNat, Nat.mod_eq_of_lt (by omega), Nat.mod_eq_of_lt (by omega)] at heq
  omega

theorem highRegister_inj (hp : p < maxPins) (hq : q < maxPins) (h : highRegister p = highRegister q) : p = q := by
  unfold maxPins at hp hq
  have heq := congrArg BitVec.toNat h
  unfold highRegister at heq
  rw [BitVec.toNat_ofNat, BitVec.toNat_ofNat, Nat.mod_eq_of_lt (by omega), Nat.mod_eq_of_lt (by omega)] at heq
  omega

/-- One is even, the other odd. -/
theorem lowRegister_ne_highRegister : lowRegister p ≠ highRegister q := by
  intro h
  have heq := congrArg BitVec.toNat h
  unfold lowRegister highRegister at heq
  rw [BitVec.toNat_ofNat, BitVec.toNat_ofNat] at heq
  omega

/-- The first registers are no pin's. -/
theorem registers_ge (hp : p < maxPins) : 0x10 ≤ (lowRegister p).toNat ∧ 0x10 ≤ (highRegister p).toNat := by
  unfold maxPins at hp
  unfold lowRegister highRegister
  rw [BitVec.toNat_ofNat, BitVec.toNat_ofNat, Nat.mod_eq_of_lt (by omega), Nat.mod_eq_of_lt (by omega)]
  omega

end

/-! ## Stores -/

/-- The pages of the chips do not reach into each other. -/
def SetApart (bases : List Nat) : Prop := ∀ b ∈ bases, ∀ b' ∈ bases, b ≠ b' → b + 0x20 ≤ b' ∨ b' + 0x20 ≤ b

/-- The call is for a pin of one of the chips. -/
structure RouteCall.Proper (bases : List Nat) (c : RouteCall) : Prop where
  chip : c.base ∈ bases
  pin : 0 ≤ c.pin ∧ c.pin < maxPins

section
variable {bases : List Nat} {base b : Nat} {s : Chips} {reg : Int} {val : BitVec 32}

/-- A chip takes no notice of a store to another one. -/
theorem store_other (hne : b + 0x20 ≤ base ∨ base + 0x20 ≤ b) {offset : Nat} (ho : offset ≤ ioWin) (v : BitVec 32) :
    s.store ⟨base + offset, v⟩ b = s b := by
  unfold ioWin at ho
  unfold Chips.store
  dsimp only
  split_ifs with hle
  · unfold IoApicChip.store ioRegSel ioWin
    rw [if_neg (by omega), if_neg (by omega)]
  · rfl

theorem store_select (v : BitVec 32) : s.store ⟨base + ioRegSel, v⟩ base = { s base with select := v.setWidth 8 } := by
  unfold Chips.store IoApicChip.store ioRegSel
  dsimp only
  rw [if_pos (Nat.le_add_right ..), if_pos (by omega)]

theorem store_window (v : BitVec 32) : s.store ⟨base + ioWin, v⟩ base = { s base with
    regs := Function.update (s base).regs (s base).select (((s base).regs (s base).select).write v) } := by
  unfold Chips.store IoApicChip.store ioRegSel ioWin
  dsimp only
  rw [if_pos (Nat.le_add_right ..), if_neg (by omega), if_pos (by omega)]

/-- `ioapic_write` writes the one register of the one chip. -/
theorem ioapicWrite_chip : (ioapicWrite base reg val).foldl Chips.store s base =
    ⟨BitVec.ofInt 8 reg,
      Function.update (s base).regs (BitVec.ofInt 8 reg) (((s base).regs (BitVec.ofInt 8 reg)).write val)⟩ := by
  unfold ioapicWrite
  rw [List.foldl_cons, List.foldl_cons, List.foldl_nil, store_window, store_select,
    BitVec.setWidth_setWidth_of_le _ (by decide), BitVec.setWidth_eq]

theorem ioapicWrite_other (hne : b + 0x20 ≤ base ∨ base + 0x20 ≤ b) :
    (ioapicWrite base reg val).foldl Chips.store s b = s b := by
  unfold ioapicWrite
  rw [List.foldl_cons, List.foldl_cons, List.foldl_nil, store_other hne (by decide), store_other hne (by decide)]

end

/-! ## A call -/

/-- What a call has done after its first two stores. -/
def RouteCall.halfway (c : RouteCall) (s : Chips) : Chips :=
  (ioapicWrite c.base (ioapicRelocBaseIndex + 1 + 2 * c.pin) c.entry.high).foldl Chips.store s

section
variable {bases : List Nat} {b p : Nat} {s : Chips} {c : RouteCall}

theorem ofInt_lowRegister (h : 0 ≤ c.pin) : BitVec.ofInt 8 (ioapicRelocBaseIndex + 2 * c.pin) = lowRegister c.pin.toNat := by
  unfold ioapicRelocBaseIndex lowRegister
  rw [← BitVec.ofInt_natCast]
  congr 1
  omega

theorem ofInt_highRegister (h : 0 ≤ c.pin) :
    BitVec.ofInt 8 (ioapicRelocBaseIndex + 1 + 2 * c.pin) = highRegister c.pin.toNat := by
  unfold ioapicRelocBaseIndex highRegister
  rw [← BitVec.ofInt_natCast]
  congr 1
  omega

theorem call_split (c : RouteCall) (s : Chips) : c.stores.foldl Chips.store s =
    (ioapicWrite c.base (ioapicRelocBaseIndex + 2 * c.pin) c.entry.low).foldl Chips.store (c.halfway s) := by
  rw [RouteCall.stores_eq, ioapicSet, List.foldl_append]
  rfl

theorem halfway_chip (h : c.Proper bases) : (c.halfway s c.base).regs = Function.update (s c.base).regs
    (highRegister c.pin.toNat) (((s c.base).regs (highRegister c.pin.toNat)).write c.entry.high) := by
  unfold RouteCall.halfway
  rw [ioapicWrite_chip, ofInt_highRegister h.pin.1]

/-- A call writes the two registers of its pin. -/
theorem call_chip (h : c.Proper bases) : (c.stores.foldl Chips.store s c.base).regs =
    Function.update (Function.update (s c.base).regs
      (highRegister c.pin.toNat) (((s c.base).regs (highRegister c.pin.toNat)).write c.entry.high))
      (lowRegister c.pin.toNat) (((s c.base).regs (lowRegister c.pin.toNat)).write c.entry.low) := by
  rw [call_split, ioapicWrite_chip, ofInt_lowRegister h.pin.1, halfway_chip h]
  dsimp only
  rw [Function.update_of_ne lowRegister_ne_highRegister]

theorem halfway_other (hbases : SetApart bases) (h : c.Proper bases) (hb : b ∈ bases) (hne : b ≠ c.base) :
    c.halfway s b = s b :=
  ioapicWrite_other (hbases b hb _ h.chip hne)

theorem call_other (hbases : SetApart bases) (h : c.Proper bases) (hb : b ∈ bases) (hne : b ≠ c.base) :
    c.stores.foldl Chips.store s b = s b := by
  rw [call_split, ioapicWrite_other (hbases b hb _ h.chip hne), halfway_other hbases h hb hne]

/-! ### What it shows on the way -/

/-- The chips have the same registers. -/
def SameRegisters (bases : List Nat) (s s' : Chips) : Prop := ∀ b ∈ bases, (s b).regs = (s' b).regs

/-- Every pin of the chips delivers to the same place. -/
def SameRouting (bases : List Nat) (s s' : Chips) : Prop :=
  ∀ b ∈ bases, ∀ p < maxPins, (s b).delivers p = (s' b).delivers p

variable {s' : Chips}

theorem SameRegisters.routing (h : SameRegisters bases s s') : SameRouting bases s s' := by
  intro b hb p _
  unfold IoApicChip.delivers IoApicChip.entry
  rw [h b hb]

theorem SameRouting.trans {s'' : Chips} (h : SameRouting bases s s') (h' : SameRouting bases s' s'') :
    SameRouting bases s s'' := fun b hb p hp => (h b hb p hp).trans (h' b hb p hp)

/-- The selection of a register changes none. -/
theorem select_registers (hbases : SetApart bases) (hb : b ∈ bases) (v : BitVec 32) :
    SameRegisters bases (s.store ⟨b + ioRegSel, v⟩) s := by
  intro b' hb'
  by_cases hne : b' = b
  · rw [hne, store_select]
  · rw [store_other (hbases b' hb' b hb hne) (by decide)]

/-- Between two stores of a call the registers are those before it, those after its first half, or those behind it. -/
theorem prefix_registers (hbases : SetApart bases) (h : c.Proper bases) {part : List MmioStore} (hpart : part <+: c.stores) :
    SameRegisters bases (part.foldl Chips.store s) s ∨ SameRegisters bases (part.foldl Chips.store s) (c.halfway s) ∨
      part = c.stores := by
  rw [RouteCall.stores_eq] at hpart ⊢
  obtain ⟨n, hn, rfl⟩ : ∃ n ≤ 4, part = (ioapicSet c.base c.pin c.entry).take n :=
    ⟨part.length, hpart.length_le, (List.prefix_iff_eq_take.1 hpart)⟩
  interval_cases n
  · exact .inl fun _ _ => rfl
  · exact .inl (select_registers hbases h.chip _)
  · exact .inr (.inl fun _ _ => rfl)
  · exact .inr (.inl (select_registers hbases h.chip _))
  · exact .inr (.inr rfl)

/-- The pin after the first half of a call, and after all of it. -/
theorem halfway_entry (h : c.Proper bases) : (c.halfway s c.base).entry c.pin.toNat =
    ⟨((s c.base).entry c.pin.toNat).low, ((s c.base).written c.pin.toNat c.entry).high⟩ := by
  unfold IoApicChip.entry
  rw [halfway_chip h, Function.update_of_ne lowRegister_ne_highRegister, Function.update_self]
  rfl

theorem call_entry (h : c.Proper bases) :
    (c.stores.foldl Chips.store s c.base).entry c.pin.toNat = (s c.base).written c.pin.toNat c.entry := by
  unfold IoApicChip.entry
  rw [call_chip h, Function.update_self, Function.update_of_ne lowRegister_ne_highRegister.symm, Function.update_self]
  rfl

/-- No other pin of any chip is concerned. -/
theorem halfway_entry_other (hbases : SetApart bases) (h : c.Proper bases) (hb : b ∈ bases) (hp : p < maxPins)
    (hne : ¬(b = c.base ∧ p = c.pin.toNat)) : (c.halfway s b).entry p = (s b).entry p := by
  by_cases hchip : b = c.base
  · have hpin : highRegister p ≠ highRegister c.pin.toNat := fun heq =>
      hne ⟨hchip, highRegister_inj hp (by have := h.pin; omega) heq⟩
    unfold IoApicChip.entry
    rw [hchip, halfway_chip h, Function.update_of_ne hpin, Function.update_of_ne lowRegister_ne_highRegister]
  · rw [halfway_other hbases h hb hchip]

theorem call_entry_other (hbases : SetApart bases) (h : c.Proper bases) (hb : b ∈ bases) (hp : p < maxPins)
    (hne : ¬(b = c.base ∧ p = c.pin.toNat)) : (c.stores.foldl Chips.store s b).entry p = (s b).entry p := by
  by_cases hchip : b = c.base
  · have hlow : lowRegister p ≠ lowRegister c.pin.toNat := fun heq =>
      hne ⟨hchip, lowRegister_inj hp (by have := h.pin; omega) heq⟩
    have hhigh : highRegister p ≠ highRegister c.pin.toNat := fun heq =>
      hne ⟨hchip, highRegister_inj hp (by have := h.pin; omega) heq⟩
    unfold IoApicChip.entry
    rw [hchip, call_chip h, Function.update_of_ne hlow, Function.update_of_ne lowRegister_ne_highRegister,
      Function.update_of_ne lowRegister_ne_highRegister.symm, Function.update_of_ne hhigh]
  · rw [call_other hbases h hb hchip]

/-! ### Routing without a torn entry -/

/-- At every moment of the call the pins deliver as before it or as after it. -/
def RouteCall.Whole (bases : List Nat) (s : Chips) (c : RouteCall) : Prop := ∀ part, part <+: c.stores →
  SameRouting bases (part.foldl Chips.store s) s ∨
    SameRouting bases (part.foldl Chips.store s) (c.stores.foldl Chips.store s)

/-- The pin is masked, or only one half of its entry changes. -/
def RouteCall.Quiet (s : Chips) (c : RouteCall) : Prop :=
  let old := (s c.base).entry c.pin.toNat
  let new := (s c.base).written c.pin.toNat c.entry
  old.mask = true ∨ new.high = old.high ∨ new.low = old.low

instance (s : Chips) (c : RouteCall) : Decidable (c.Quiet s) := inferInstanceAs (Decidable (_ ∨ _ ∨ _))

theorem halfway_delivers (h : c.Proper bases) : (c.halfway s c.base).delivers c.pin.toNat =
    if ((s c.base).entry c.pin.toNat).mask then none
    else some ⟨((s c.base).entry c.pin.toNat).low, ((s c.base).written c.pin.toNat c.entry).high⟩ := by
  unfold IoApicChip.delivers
  rw [halfway_entry h]
  rfl

theorem delivers_congr {chip chip' : IoApicChip} (h : chip.entry p = chip'.entry p) :
    chip.delivers p = chip'.delivers p := by
  unfold IoApicChip.delivers
  rw [h]

/-- Halfway through a call it is up to the one pin. -/
theorem halfway_routing (hbases : SetApart bases) (h : c.Proper bases)
    (hpin : (c.halfway s c.base).delivers c.pin.toNat = (s c.base).delivers c.pin.toNat) :
    SameRouting bases (c.halfway s) s := by
  intro b hb p hp
  by_cases hone : b = c.base ∧ p = c.pin.toNat
  · rw [hone.1, hone.2, hpin]
  · exact delivers_congr (halfway_entry_other hbases h hb hp hone)

theorem halfway_routing_call (hbases : SetApart bases) (h : c.Proper bases)
    (hpin : (c.halfway s c.base).delivers c.pin.toNat = (c.stores.foldl Chips.store s c.base).delivers c.pin.toNat) :
    SameRouting bases (c.halfway s) (c.stores.foldl Chips.store s) := by
  intro b hb p hp
  by_cases hone : b = c.base ∧ p = c.pin.toNat
  · rw [hone.1, hone.2, hpin]
  · exact delivers_congr ((halfway_entry_other hbases h hb hp hone).trans (call_entry_other hbases h hb hp hone).symm)

/-- A call is never seen half done exactly if its pin is masked before, or only one half of the entry changes. -/
theorem call_whole_iff (hbases : SetApart bases) (h : c.Proper bases) : c.Whole bases s ↔ c.Quiet s := by
  have hpin : c.pin.toNat < maxPins := by have := h.pin; omega
  constructor
  · intro hwhole
    by_contra hloud
    unfold RouteCall.Quiet at hloud
    dsimp only at hloud
    rw [not_or, not_or] at hloud
    obtain ⟨hmask, hhigh, hlow⟩ := hloud
    have hhalf := halfway_delivers (s := s) h
    rw [if_neg hmask] at hhalf
    have hpart : ioapicWrite c.base (ioapicRelocBaseIndex + 1 + 2 * c.pin) c.entry.high <+: c.stores := by
      rw [RouteCall.stores_eq]
      exact List.prefix_append ..
    rcases hwhole _ hpart with hsame | hsame
    · -- the old vector with the new destination
      have heq := (hsame _ h.chip _ hpin).symm.trans hhalf
      unfold IoApicChip.delivers at heq
      rw [if_neg hmask] at heq
      exact hhigh (congrArg RedirectionEntry.high (Option.some.inj heq)).symm
    · have heq := (hsame _ h.chip _ hpin).symm.trans hhalf
      unfold IoApicChip.delivers at heq
      rw [call_entry h] at heq
      split_ifs at heq
      have hsame : ((s c.base).written c.pin.toNat c.entry).low = _ := congrArg RedirectionEntry.low (Option.some.inj heq)
      exact hlow hsame
  · intro hquiet part hpart
    rcases prefix_registers (s := s) hbases h hpart with hregs | hregs | rfl
    · exact .inl hregs.routing
    · rcases hquiet with hmask | hhigh | hlow
      · refine .inl (hregs.routing.trans (halfway_routing hbases h ?_))
        rw [halfway_delivers h, if_pos hmask]
        exact (if_pos hmask).symm
      · refine .inl (hregs.routing.trans (halfway_routing hbases h (delivers_congr ?_)))
        rw [halfway_entry h, hhigh]
      · refine .inr (hregs.routing.trans (halfway_routing_call hbases h (delivers_congr ?_)))
        rw [halfway_entry h, call_entry h, ← hlow]
    · exact .inr fun _ _ _ _ => rfl

end

/-! ## Runs of calls -/

/-- At every moment of the run the pins deliver as they do between two of its calls: before the call that is in progress,
or behind it. -/
def NeverTorn (bases : List Nat) (s : Chips) (cs : List RouteCall) : Prop :=
  ∀ pre c post, cs = pre ++ c :: post → ∀ part, part <+: c.stores →
    SameRouting bases ((pre.flatMap RouteCall.stores ++ part).foldl Chips.store s) (routeAll pre s) ∨
      SameRouting bases ((pre.flatMap RouteCall.stores ++ part).foldl Chips.store s) (routeAll (pre ++ [c]) s)

/-- What a run leaves behind: each pin that was routed has the entry of the last call for it, as far as the chip lets it
be written, and nothing else has changed. -/
structure Routed (bases : List Nat) (s : Chips) (cs : List RouteCall) (s' : Chips) : Prop where
  last : ∀ pre c post, cs = pre ++ c :: post → (∀ d ∈ post, ¬(d.base = c.base ∧ d.pin = c.pin)) →
    (s' c.base).entry c.pin.toNat = (s c.base).written c.pin.toNat c.entry
  other : ∀ b ∈ bases, ∀ p < maxPins, (∀ c ∈ cs, ¬(c.base = b ∧ c.pin = p)) → (s' b).entry p = (s b).entry p
  identity : ∀ b ∈ bases, ∀ r : BitVec 8, r.toNat < 0x10 → (s' b).regs r = (s b).regs r

section
variable {bases : List Nat} {b p : Nat} {s : Chips} {c : RouteCall} {cs : List RouteCall} {e : RedirectionEntry}

theorem routeAll_append (cs cs' : List RouteCall) (s : Chips) : routeAll (cs ++ cs') s = routeAll cs' (routeAll cs s) := by
  unfold routeAll
  rw [List.flatMap_append, List.foldl_append]

theorem routeAll_cons (c : RouteCall) (cs : List RouteCall) (s : Chips) :
    routeAll (c :: cs) s = routeAll cs (c.stores.foldl Chips.store s) := by
  unfold routeAll
  rw [List.flatMap_cons, List.foldl_append]

/-- A pin that no call of the run is for. -/
theorem run_entry_other (hbases : SetApart bases) : ∀ {cs : List RouteCall} {s : Chips},
    (∀ c ∈ cs, c.Proper bases) → ∀ {b p : Nat}, b ∈ bases → p < maxPins → (∀ c ∈ cs, ¬(c.base = b ∧ c.pin = p)) →
      (routeAll cs s b).entry p = (s b).entry p
  | [], _, _, _, _, _, _, _ => rfl
  | c :: cs, s, hcs, b, p, hb, hp, hno => by
    have hc := hcs c List.mem_cons_self
    have hne : ¬(b = c.base ∧ p = c.pin.toNat) := by
      rintro ⟨rfl, rfl⟩
      exact hno c List.mem_cons_self ⟨rfl, (Int.toNat_of_nonneg hc.pin.1).symm⟩
    have hrest := run_entry_other hbases (s := c.stores.foldl Chips.store s)
      (fun d hd => hcs d (List.mem_cons_of_mem c hd)) hb hp fun d hd => hno d (List.mem_cons_of_mem c hd)
    rw [routeAll_cons, hrest, call_entry_other hbases hc hb hp hne]

/-- What can be written to a pin does not depend on what was written before. -/
theorem call_written (hbases : SetApart bases) (h : c.Proper bases) (hb : b ∈ bases) (hp : p < maxPins)
    (e : RedirectionEntry) : (c.stores.foldl Chips.store s b).written p e = (s b).written p e := by
  by_cases hchip : b = c.base
  · subst hchip
    unfold IoApicChip.written
    rw [call_chip h, Function.update_of_ne lowRegister_ne_highRegister.symm]
    by_cases hpin : p = c.pin.toNat
    · subst hpin
      rw [Function.update_self, Function.update_self, Register.write_write, Register.write_write]
    · have hlow : lowRegister p ≠ lowRegister c.pin.toNat := fun heq =>
        hpin (lowRegister_inj hp (by have := h.pin; omega) heq)
      have hhigh : highRegister p ≠ highRegister c.pin.toNat := fun heq =>
        hpin (highRegister_inj hp (by have := h.pin; omega) heq)
      rw [Function.update_of_ne hlow, Function.update_of_ne lowRegister_ne_highRegister, Function.update_of_ne hhigh]
  · rw [call_other hbases h hb hchip]

theorem run_written (hbases : SetApart bases) (hb : b ∈ bases) (hp : p < maxPins) (e : RedirectionEntry) :
    ∀ {cs : List RouteCall} {s : Chips}, (∀ c ∈ cs, c.Proper bases) →
      (routeAll cs s b).written p e = (s b).written p e
  | [], _, _ => rfl
  | c :: cs, s, hcs => by
    rw [routeAll_cons, run_written hbases hb hp e fun d hd => hcs d (List.mem_cons_of_mem c hd),
      call_written hbases (hcs c List.mem_cons_self) hb hp]

/-- The first 16 registers, which say what the chip is, are no pin's. -/
theorem run_identity (hbases : SetApart bases) (hb : b ∈ bases) {r : BitVec 8} (hr : r.toNat < 0x10) :
    ∀ {cs : List RouteCall} {s : Chips}, (∀ c ∈ cs, c.Proper bases) → (routeAll cs s b).regs r = (s b).regs r
  | [], _, _ => rfl
  | c :: cs, s, hcs => by
    have hc := hcs c List.mem_cons_self
    rw [routeAll_cons, run_identity hbases hb hr fun d hd => hcs d (List.mem_cons_of_mem c hd)]
    by_cases hchip : b = c.base
    · obtain ⟨hlow, hhigh⟩ := @registers_ge c.pin.toNat (by have := hc.pin; omega)
      have hlow' : r ≠ lowRegister c.pin.toNat := by rintro rfl; omega
      have hhigh' : r ≠ highRegister c.pin.toNat := by rintro rfl; omega
      rw [hchip, call_chip hc, Function.update_of_ne hlow', Function.update_of_ne hhigh']
    · rw [call_other hbases hc hb hchip]

/-- No run of calls is ever seen half done, exactly if each of them finds its pin masked or changes one half of its entry
only. -/
theorem never_torn_iff (hbases : SetApart bases) (hcs : ∀ c ∈ cs, c.Proper bases) :
    NeverTorn bases s cs ↔ ∀ pre c post, cs = pre ++ c :: post → c.Quiet (routeAll pre s) := by
  refine forall_congr' fun pre => forall_congr' fun c => forall_congr' fun post => forall_congr' fun heq => ?_
  have hc : c.Proper bases := hcs c (by rw [heq]; simp)
  rw [← call_whole_iff hbases hc, routeAll_append, routeAll_cons]
  simp only [List.foldl_append]
  rfl

/-- The chips hold what the last call for each pin has written, however often it was routed before. -/
theorem run_routed (hbases : SetApart bases) (hcs : ∀ c ∈ cs, c.Proper bases) (s : Chips) :
    Routed bases s cs (routeAll cs s) := by
  refine ⟨?_, fun b hb p hp hno => run_entry_other hbases hcs hb hp hno, fun b hb r hr => run_identity hbases hb hr hcs⟩
  rintro pre c post rfl hlast
  have hc : c.Proper bases := hcs c (by simp)
  have hpin : c.pin.toNat < maxPins := by have := hc.pin; omega
  have hpost : ∀ d ∈ post, ¬(d.base = c.base ∧ d.pin = (c.pin.toNat : Int)) := by
    rw [Int.toNat_of_nonneg hc.pin.1]
    exact hlast
  rw [routeAll_append, routeAll_cons, run_entry_other hbases (fun d hd => hcs d (by simp [hd])) hc.chip hpin hpost,
    call_entry hc, run_written hbases hc.chip hpin _ fun d hd => hcs d (by simp [hd])]

end

/-! ## A chip of two pins -/

/-- Both pins are masked. -/
def twoPins : IoApicChip := ⟨0, fun r => if r = 1 then ⟨0x10011, 0⟩ else ⟨0x10000, BitVec.allOnes 32⟩⟩

/-- Pin 1 is routed and then masked again. -/
def routeAndMask : List RouteCall := [.route 0xFEC00000 1 33 0 false false, .set 0xFEC00000 1 ⟨0x10021, 0⟩]

theorem routeAndMask_proper : ∀ c ∈ routeAndMask, c.Proper [0xFEC00000] := by
  intro c hc
  unfold routeAndMask at hc
  simp only [List.mem_cons, List.not_mem_nil, or_false] at hc
  rcases hc with rfl | rfl
  · exact ⟨List.mem_cons_self, by decide⟩
  · exact ⟨List.mem_cons_self, by decide⟩

theorem oneChip_apart (b : Nat) : SetApart [b] := by
  intro b₁ h₁ b₂ h₂ hne
  rw [List.mem_singleton.1 h₁, List.mem_singleton.1 h₂] at hne
  exact absurd rfl hne

/-- The first call finds the pin masked, and the second one leaves the destination. -/
theorem never_torn_routeAndMask : NeverTorn [0xFEC00000] (fun _ => twoPins) routeAndMask := by
  refine (never_torn_iff (oneChip_apart _) routeAndMask_proper).2 fun pre c post heq => ?_
  unfold routeAndMask at heq
  rcases pre with _ | ⟨c₁, _ | ⟨c₂, pre⟩⟩
  · cases heq
    decide +kernel
  · cases heq
    decide +kernel
  · simp at heq

theorem run_routed_routeAndMask : Routed [0xFEC00000] (fun _ => twoPins) routeAndMask
    (routeAll routeAndMask fun _ => twoPins) :=
  run_routed (oneChip_apart _) routeAndMask_proper _

end Icarus.Interrupts
