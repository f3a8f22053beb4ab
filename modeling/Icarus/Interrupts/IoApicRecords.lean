/-
The records the kernel keeps of the I/O APICs (APIC.c): one block of the heap for all of them, in which each record ends
with a table as long as its chip has pins, so that the next one is found by the size of the one before.
-/
import Icarus.Acpi.Madt
import Icarus.Interrupts.IoApic
import Icarus.Memory.HeapScan
import Icarus.Processes.Creation

namespace Icarus.Interrupts

open Icarus.Base Icarus.Memory Icarus.Processes Icarus.Acpi

/-! ## The code -/

/-- `ioapic_redirection_entry_t`. -/
def redirectionEntry : Member := .struct (packed [.u32, .u32])

/-- `ioapic_info`; the table at its end is a flexible array. -/
def ioapicInfo : List Member := [.u64, .u32, .u8, .u8, .u8, .array 0 redirectionEntry]

/-- `sizeof(ioapic_info)`. -/
def sizeofIoapicInfo : Nat := sizeOfStruct ioapicInfo

/-- `ioapic_descriptor`; the records stand behind the count. -/
def ioapicDescriptor : List Member := [.u64, .array 0 (.struct ioapicInfo)]

/-- `sizeof(ioapic_descriptor)`. -/
def sizeofIoapicDescriptor : Nat := sizeOfStruct ioapicDescriptor

/-- `IOAPICID`. -/
def ioapicId : Int := 0x0

/-- `IOAPICVER`. -/
def ioapicVer : Int := 0x1

/-- How many entries the version register says there are. -/
def redirEntryCount (ver : BitVec 32) : BitVec 32 := (ver >>> 16 &&& 0xFF#32) + 1#32

/-- Where entry `i` of the table of a record lies. -/
def tableEntryAddr (info i : Nat) : Nat := info + offsetOf ioapicInfo 5 + redirectionEntry.size * i

/-- The loop of `enable_io_apic`, from entry `i` and register `reg` on. -/
def readTable (addr info : Nat) : (fuel i : Nat) → (reg : Int) → Mem → Chips → Mem × Chips
  | 0, _, _, m, s => (m, s)
  | fuel + 1, i, reg, m, s =>
    if i < (m.load (info + offsetOf ioapicInfo 4) 1).toNat then
      let (low, s) := ioapicRead addr reg s
      let (high, s) := ioapicRead addr (reg + 1) s
      let m := m.store (tableEntryAddr info i) 4 low
      let m := m.store (tableEntryAddr info i + 4) 4 high
      readTable addr info fuel (i + 1) (reg + 2) m s
    else (m, s)

/-- `enable_io_apic`; the count of a record has 8 bits, so the loop has fewer than 256 rounds. -/
def enableIoApic (addr info : Nat) (m : Mem) (s : Chips) : BitVec 32 × Mem × Chips :=
  let m := m.store64 (info + offsetOf ioapicInfo 0) (BitVec.ofNat 64 addr)
  let (ver, s) := ioapicRead addr ioapicVer s
  let m := m.store (info + offsetOf ioapicInfo 4) 1 ((redirEntryCount ver).setWidth 8)
  let (ver, s) := ioapicRead addr ioapicVer s
  let m := m.store (info + offsetOf ioapicInfo 3) 1 ((ver &&& 0xFF#32).setWidth 8)
  let (id, s) := ioapicRead addr ioapicId s
  let m := m.store (info + offsetOf ioapicInfo 2) 1 ((id >>> 24 &&& 0xF#32).setWidth 8)
  let count := m.load (info + offsetOf ioapicInfo 4) 1
  let m := m.store (info + offsetOf ioapicInfo 1) 4
    (BitVec.ofNat 32 (sizeofIoapicInfo + redirectionEntry.size * count.toNat))
  let (m, s) := readTable addr info 256 0 ioapicRelocBaseIndex m s
  (m.load (info + offsetOf ioapicInfo 1) 4, m, s)

/-- `APIC_INFO->ioapic_count`. -/
def ioapicCount (m : Mem) (apicInfo : Nat) : Nat := (m.load (apicInfo + MadtKind.ioapic.countOffset) 4).toNat

/-- `MMIO_PHYS_TO_VIRT(APIC_INFO->ioapics[i].addr)`. -/
def ioapicBase (m : Mem) (apicInfo i : Nat) : Nat :=
  let ioapics := (m.load64 (apicInfo + MadtKind.ioapic.pointerOffset)).toNat
  mmioPhysToVirt (m.load (ioapics + MadtKind.ioapic.elemSize * i + offsetOf MadtKind.ioapic.info 1) 4).toNat

/-- The first loop of `enable_io_apics`, from chip `i` on: the bytes of the tables. -/
def sumTables (m : Mem) (apicInfo : Nat) : (fuel i total : Nat) → Chips → Nat × Chips
  | 0, _, total, s => (total, s)
  | fuel + 1, i, total, s =>
    if i < ioapicCount m apicInfo then
      let (ver, s) := ioapicRead (ioapicBase m apicInfo i) ioapicVer s
      sumTables m apicInfo fuel (i + 1) (total + (redirEntryCount ver).toNat * redirectionEntry.size) s
    else (total, s)

/-- The second loop, which writes the record of chip `i` at `info`. -/
def enableAll (apicInfo : Nat) : (fuel i info : Nat) → Mem → Chips → Mem × Chips
  | 0, _, _, m, s => (m, s)
  | fuel + 1, i, info, m, s =>
    if i < ioapicCount m apicInfo then
      let (size, m, s) := enableIoApic (ioapicBase m apicInfo i) info m s
      enableAll apicInfo fuel (i + 1) (info + size.toNat) m s
    else (m, s)

/-- More rounds than a count of 32 bits can ask for. -/
def ioapicRounds : Nat := 2 ^ 32

/-- `enable_io_apics`: the new `ioapic_infos`. -/
def enableIoApics (apicInfo : Nat) (k : Kernel) (s : Chips) : Except Fault (Nat × Kernel × Chips) := do
  let total := sizeofIoapicInfo * ioapicCount k.heap.heap.mem apicInfo
  let (total, s) := sumTables k.heap.heap.mem apicInfo ioapicRounds 0 total s
  let (infos, k) ← imalloc (sizeofIoapicDescriptor + total) k
  let (mem, s) := enableAll apicInfo ioapicRounds 0 (infos + offsetOf ioapicDescriptor 1) k.heap.heap.mem s
  return (infos, { k with heap := { k.heap with heap := { k.heap.heap with mem } } }, s)

/-- `keyboard_ps2_init`: pin 1 of the first chip to vector 33 of the first processor. -/
def keyboardPs2Init (infos : Nat) (m : Mem) : List MmioStore :=
  ioapicRoute (m.load64 (infos + offsetOf ioapicDescriptor 1 + offsetOf ioapicInfo 0)).toNat 1 33 0 false false

/-! ## The layout of the records -/

theorem record_layout : offsetOf ioapicInfo 0 = 0 ∧ offsetOf ioapicInfo 1 = 8 ∧ offsetOf ioapicInfo 2 = 12 ∧
    offsetOf ioapicInfo 3 = 13 ∧ offsetOf ioapicInfo 4 = 14 ∧ offsetOf ioapicInfo 5 = 15 ∧ sizeofIoapicInfo = 16 ∧
      redirectionEntry.size = 8 ∧ sizeofIoapicDescriptor = 8 ∧ offsetOf ioapicDescriptor 1 = 8 := by decide

/-- Entry `i` of the table of a record. -/
def recordedEntry (m : Mem) (info i : Nat) : RedirectionEntry :=
  ⟨m.load (tableEntryAddr info i) 4, m.load (tableEntryAddr info i + 4) 4⟩

/-- How many pins a chip says it has. -/
def IoApicChip.pins (c : IoApicChip) : Nat := (redirEntryCount (c.regs 1#8).value).toNat

/-- The record at `info` describes the chip at `addr`. -/
structure Recorded (m : Mem) (info addr : Nat) (c : IoApicChip) : Prop where
  base : m.load64 (info + offsetOf ioapicInfo 0) = BitVec.ofNat 64 addr
  size : (m.load (info + offsetOf ioapicInfo 1) 4).toNat = sizeofIoapicInfo + redirectionEntry.size * c.pins
  id : m.load (info + offsetOf ioapicInfo 2) 1 = ((c.regs 0#8).value.extractLsb' 24 4).setWidth 8
  version : m.load (info + offsetOf ioapicInfo 3) 1 = (c.regs 1#8).value.extractLsb' 0 8
  count : (m.load (info + offsetOf ioapicInfo 4) 1).toNat = c.pins
  table : ∀ p < c.pins, recordedEntry m info p = c.entry p

/-- The bytes of a record. -/
def IoApicChip.recordSize (c : IoApicChip) : Nat := sizeofIoapicInfo + redirectionEntry.size * c.pins

theorem recordSize_eq (c : IoApicChip) : c.recordSize = 16 + 8 * c.pins := by
  obtain ⟨-, -, -, -, -, -, hsize, hentry, -⟩ := record_layout
  unfold IoApicChip.recordSize
  rw [hsize, hentry]

theorem tableEntryAddr_eq (info i : Nat) : tableEntryAddr info i = info + 15 + 8 * i := by
  obtain ⟨-, -, -, -, -, htable, -, hentry, -⟩ := record_layout
  unfold tableEntryAddr
  rw [htable, hentry]

/-! ## One record -/

section
variable {bases : List Nat} {addr info : Nat} {m : Mem} {s s₀ : Chips} {c : IoApicChip}

theorem SameRegisters.trans {s₁ : Chips} (h : SameRegisters bases s s₀) (h' : SameRegisters bases s₀ s₁) :
    SameRegisters bases s s₁ := fun b hb => (h b hb).trans (h' b hb)

/-- `ioapic_read` gives what the register holds, and changes none. -/
theorem ioapicRead_spec (hbases : SetApart bases) (haddr : addr ∈ bases) (hs : SameRegisters bases s s₀) (reg : Int) :
    (ioapicRead addr reg s).1 = ((s₀ addr).regs (BitVec.ofInt 8 reg)).value ∧
      SameRegisters bases (ioapicRead addr reg s).2 s₀ := by
  refine ⟨?_, (select_registers hbases haddr _).trans hs⟩
  unfold ioapicRead Chips.window
  dsimp only
  rw [store_select, BitVec.setWidth_setWidth_of_le _ (by decide), BitVec.setWidth_eq, hs addr haddr]

/-- The loop of `enable_io_apic` fills the rest of the table. -/
theorem readTable_spec (hbases : SetApart bases) (haddr : addr ∈ bases) {count : Nat} (hcount : count ≤ maxPins) :
    ∀ (n fuel i : Nat) (reg : Int) {m : Mem} {s : Chips}, i + n = count → n < fuel → reg = 0x10 + 2 * i →
      (m.load (info + 14) 1).toNat = count → SameRegisters bases s s₀ →
      SameRegisters bases (readTable addr info fuel i reg m s).2 s₀ ∧
        (∀ j, i ≤ j → j < count → recordedEntry (readTable addr info fuel i reg m s).1 info j = (s₀ addr).entry j) ∧
        ∀ x, x < info + 15 + 8 * i ∨ info + 15 + 8 * count ≤ x → (readTable addr info fuel i reg m s).1 x = m x
  | n, fuel + 1, i, reg, m, s, hn, hfuel, hreg, hm, hs => by
    obtain ⟨-, -, -, -, hoff, -⟩ := record_layout
    unfold readTable
    rw [hoff, hm]
    cases n with
    | zero =>
      rw [if_neg (by omega)]
      exact ⟨hs, fun j h1 h2 => absurd h2 (by omega), fun _ _ => rfl⟩
    | succ n =>
      rw [if_pos (by omega)]
      obtain ⟨hlow, hs₁⟩ := ioapicRead_spec hbases haddr hs reg
      obtain ⟨hhigh, hs₂⟩ := ioapicRead_spec hbases haddr hs₁ (reg + 1)
      have hregister : BitVec.ofInt 8 reg = lowRegister i ∧ BitVec.ofInt 8 (reg + 1) = highRegister i := by
        unfold lowRegister highRegister
        rw [← BitVec.ofInt_natCast, ← BitVec.ofInt_natCast, hreg]
        exact ⟨rfl, by congr 1; omega⟩
      rw [hregister.1] at hlow
      rw [hregister.2] at hhigh
      dsimp only
      obtain ⟨m', hm'⟩ : ∃ m', (m.store (tableEntryAddr info i) 4 (ioapicRead addr reg s).1).store
          (tableEntryAddr info i + 4) 4 (ioapicRead addr (reg + 1) (ioapicRead addr reg s).2).1 = m' := ⟨_, rfl⟩
      rw [hm']
      have hstored : ∀ x, x < info + 15 + 8 * i ∨ info + 15 + 8 * i + 8 ≤ x → m' x = m x := by
        intro x hx
        have haddr := tableEntryAddr_eq info i
        rw [← hm', Mem.store_of_lt (by omega), Mem.store_of_lt (by omega)]
      have hentry : recordedEntry m' info i = (s₀ addr).entry i := by
        unfold recordedEntry IoApicChip.entry
        rw [← hm', Mem.load_store_same, Mem.load_store_disjoint _ (by omega), Mem.load_store_same, hlow, hhigh]
      have hcount' : (m'.load (info + 14) 1).toNat = count := by
        rw [Mem.load_congr fun x h1 h2 => hstored x (by omega), hm]
      obtain ⟨hregs, htable, hframe⟩ := readTable_spec hbases haddr hcount n fuel (i + 1) (reg + 2) (by omega)
        (by omega) (by omega) hcount' hs₂
      refine ⟨hregs, fun j h1 h2 => ?_, fun x hx => (hframe x (by omega)).trans (hstored x (by omega))⟩
      rcases Nat.eq_or_lt_of_le h1 with rfl | hlt
      · rw [← hentry]
        have haddr := tableEntryAddr_eq info i
        unfold recordedEntry
        rw [Mem.load_congr fun x h1 h2 => hframe x (by omega), Mem.load_congr fun x h1 h2 => hframe x (by omega)]
      · exact htable j hlt h2

/-- The fields of a record in front of its table. -/
theorem header_fields (m : Mem) (info : Nat) (base : BitVec 64) (count version id : BitVec 8) (size : BitVec 32) :
    ∃ m', ((((m.store64 info base).store (info + 14) 1 count).store (info + 13) 1 version).store (info + 12) 1 id).store
        (info + 8) 4 size = m' ∧ m'.load64 info = base ∧ m'.load (info + 8) 4 = size ∧ m'.load (info + 12) 1 = id ∧
      m'.load (info + 13) 1 = version ∧ m'.load (info + 14) 1 = count ∧ ∀ x, x < info ∨ info + 15 ≤ x → m' x = m x := by
  unfold Mem.load64 Mem.store64
  refine ⟨_, rfl, ?_, ?_, ?_, ?_, ?_, fun x hx => ?_⟩
  · rw [Mem.load_store_disjoint _ (by omega), Mem.load_store_disjoint _ (by omega), Mem.load_store_disjoint _ (by omega),
      Mem.load_store_disjoint _ (by omega), Mem.load_store_same]
  · rw [Mem.load_store_same]
  · rw [Mem.load_store_disjoint _ (by omega), Mem.load_store_same]
  · rw [Mem.load_store_disjoint _ (by omega), Mem.load_store_disjoint _ (by omega), Mem.load_store_same]
  · rw [Mem.load_store_disjoint _ (by omega), Mem.load_store_disjoint _ (by omega), Mem.load_store_disjoint _ (by omega),
      Mem.load_store_same]
  · rw [Mem.store_of_lt (by omega), Mem.store_of_lt (by omega), Mem.store_of_lt (by omega), Mem.store_of_lt (by omega),
      Mem.store_of_lt (by omega)]

/-- The field of the id, and that of the version. -/
theorem id_field (v : BitVec 32) : (v >>> 24 &&& 0xF#32).setWidth 8 = (v.extractLsb' 24 4).setWidth 8 := by
  apply BitVec.eq_of_getLsbD_eq
  intro i hi
  interval_cases i <;> simp

theorem version_field (v : BitVec 32) : (v &&& 0xFF#32).setWidth 8 = v.extractLsb' 0 8 := by
  apply BitVec.eq_of_getLsbD_eq
  intro i hi
  interval_cases i <;> simp

/-- `enable_io_apic` writes one record and changes no register. -/
theorem enableIoApic_spec (hbases : SetApart bases) (haddr : addr ∈ bases) (hs : SameRegisters bases s s₀)
    (hpins : (s₀ addr).pins ≤ maxPins) (info : Nat) (m : Mem) :
    (enableIoApic addr info m s).1.toNat = (s₀ addr).recordSize ∧
      Recorded (enableIoApic addr info m s).2.1 info addr (s₀ addr) ∧
      SameRegisters bases (enableIoApic addr info m s).2.2 s₀ ∧
      ∀ x, x < info ∨ info + (s₀ addr).recordSize ≤ x → (enableIoApic addr info m s).2.1 x = m x := by
  obtain ⟨h0, h1, h2, h3, h4, -, hsize, hentry, -⟩ := record_layout
  have hbound : (s₀ addr).pins ≤ 120 := hpins
  obtain ⟨hver, hs₁⟩ := ioapicRead_spec hbases haddr hs ioapicVer
  obtain ⟨hver', hs₂⟩ := ioapicRead_spec hbases haddr hs₁ ioapicVer
  obtain ⟨hid, hs₃⟩ := ioapicRead_spec hbases haddr hs₂ ioapicId
  have hcount : ((redirEntryCount ((s₀ addr).regs 1#8).value).setWidth 8).toNat = (s₀ addr).pins := by
    rw [BitVec.toNat_setWidth]
    exact Nat.mod_eq_of_lt (lt_of_le_of_lt hpins (by decide))
  have hfit : 16 + 8 * (s₀ addr).pins < 2 ^ 32 := by omega
  obtain ⟨m', hm', hbase, htotal, hids, hvers, hcounts, houtside⟩ := header_fields m info (BitVec.ofNat 64 addr)
    ((redirEntryCount ((s₀ addr).regs 1#8).value).setWidth 8) (((s₀ addr).regs 1#8).value.extractLsb' 0 8)
    ((((s₀ addr).regs 0#8).value.extractLsb' 24 4).setWidth 8) (BitVec.ofNat 32 (16 + 8 * (s₀ addr).pins))
  obtain ⟨s', hs'⟩ : ∃ s', (ioapicRead addr ioapicId (ioapicRead addr ioapicVer (ioapicRead addr ioapicVer s).2).2).2 = s' :=
    ⟨_, rfl⟩
  rw [hs'] at hs₃
  have hrun : enableIoApic addr info m s =
      ((readTable addr info 256 0 ioapicRelocBaseIndex m' s').1.load (info + 8) 4,
        readTable addr info 256 0 ioapicRelocBaseIndex m' s') := by
    have hver1 : BitVec.ofInt 8 ioapicVer = 1#8 := rfl
    have hid0 : BitVec.ofInt 8 ioapicId = 0#8 := rfl
    unfold enableIoApic
    dsimp only
    rw [h0, h1, h2, h3, h4, hsize, hentry, hver, hver', hid, hs', hver1, hid0, version_field, id_field,
      Mem.load_store_disjoint _ (by omega), Mem.load_store_disjoint _ (by omega), Mem.load_store_same, hcount,
      Nat.add_zero, hm']
  obtain ⟨hregs, htable, hframe⟩ := readTable_spec hbases haddr hpins _ 256 0 ioapicRelocBaseIndex (Nat.zero_add _)
    (by omega) rfl (by rw [hcounts, hcount]) hs₃
  have hhead : ∀ x, x < info + 15 → (readTable addr info 256 0 ioapicRelocBaseIndex m' s').1 x = m' x :=
    fun x hx => hframe x (by omega)
  have hrecord : (s₀ addr).recordSize = 16 + 8 * (s₀ addr).pins := recordSize_eq _
  rw [hrun]
  dsimp only
  rw [Mem.load_congr fun x h1 h2 => hhead x (by omega), htotal, hrecord]
  refine ⟨?_, ⟨?_, ?_, ?_, ?_, ?_, fun p hp => htable p (Nat.zero_le p) hp⟩, hregs, fun x hx => ?_⟩
  · rw [BitVec.toNat_ofNat, Nat.mod_eq_of_lt hfit]
  · rw [h0, Mem.load64, Mem.load_congr fun x h1 h2 => hhead x (by omega)]
    exact hbase
  · rw [h1, Mem.load_congr fun x h1 h2 => hhead x (by omega), htotal, hsize, hentry, BitVec.toNat_ofNat,
      Nat.mod_eq_of_lt hfit]
  · rw [h2, Mem.load_congr fun x h1 h2 => hhead x (by omega), hids]
  · rw [h3, Mem.load_congr fun x h1 h2 => hhead x (by omega), hvers]
  · rw [h4, Mem.load_congr fun x h1 h2 => hhead x (by omega), hcounts, hcount]
  · rw [hframe x (by omega), houtside x (by omega)]

end

/-! ## All records -/

/-- `APIC_INFO` lists the chips at these addresses, and all that it does so with lies in a block of the heap. -/
structure IoApicsListed (m : Mem) (apicInfo : Nat) (block : Nat × Nat) (addrs : List Nat) : Prop where
  count : ioapicCount m apicInfo = addrs.length
  bases : ∀ (i : Nat) (h : i < addrs.length), ioapicBase m apicInfo i = addrs[i]
  info : block.1 ≤ apicInfo ∧ apicInfo + sizeofMadtInfo ≤ block.1 + block.2
  array : block.1 ≤ (m.load64 (apicInfo + MadtKind.ioapic.pointerOffset)).toNat ∧
    (m.load64 (apicInfo + MadtKind.ioapic.pointerOffset)).toNat + MadtKind.ioapic.elemSize * addrs.length ≤
      block.1 + block.2

/-- From `start` on each record tells by its size where the next one is, up to `stop`, and they describe the chips one
by one. -/
def RecordsOf (m : Mem) (start stop : Nat) (addrs : List Nat) (s : Chips) : Prop :=
  ∃ infos, Tiled (fun info => (m.load (info + offsetOf ioapicInfo 1) 4).toNat) start infos stop ∧
    List.Forall₂ (fun info addr => Recorded m info addr (s addr)) infos addrs

/-- The bytes of the records. -/
def recordsSize (addrs : List Nat) (s : Chips) : Nat := (addrs.map fun addr => (s addr).recordSize).sum

section
variable {bases addrs : List Nat} {addr info apicInfo : Nat} {block : Nat × Nat} {m m' : Mem} {s s₀ : Chips}
  {c : IoApicChip}

/-- A record whose bytes stay. -/
theorem Recorded.congr (h : Recorded m info addr c) (hsame : ∀ x, info ≤ x → x < info + c.recordSize → m' x = m x) :
    Recorded m' info addr c := by
  obtain ⟨h0, h1, h2, h3, h4, -⟩ := record_layout
  have hsize := recordSize_eq c
  obtain ⟨hbase, htotal, hid, hversion, hcount, htable⟩ := h
  rw [h0, Mem.load64] at hbase
  rw [h1] at htotal
  rw [h2] at hid
  rw [h3] at hversion
  rw [h4] at hcount
  refine ⟨?_, ?_, ?_, ?_, ?_, fun p hp => (htable p hp).symm.trans ?_ |>.symm⟩
  · rw [h0, Mem.load64, Mem.load_congr fun x h1 h2 => hsame x (by omega) (by omega), hbase]
  · rw [h1, Mem.load_congr fun x h1 h2 => hsame x (by omega) (by omega), htotal]
  · rw [h2, Mem.load_congr fun x h1 h2 => hsame x (by omega) (by omega), hid]
  · rw [h3, Mem.load_congr fun x h1 h2 => hsame x (by omega) (by omega), hversion]
  · rw [h4, Mem.load_congr fun x h1 h2 => hsame x (by omega) (by omega), hcount]
  · have haddr := tableEntryAddr_eq info p
    unfold recordedEntry
    rw [Mem.load_congr fun x h1 h2 => (hsame x (by omega) (by omega)).symm,
      Mem.load_congr fun x h1 h2 => (hsame x (by omega) (by omega)).symm]

/-- What lists the chips is not where it is written. -/
theorem IoApicsListed.congr (h : IoApicsListed m apicInfo block addrs)
    (hsame : ∀ x, block.1 ≤ x → x < block.1 + block.2 → m' x = m x) : IoApicsListed m' apicInfo block addrs := by
  obtain ⟨-, helem, -⟩ := elemSizes
  have hoff : MadtKind.ioapic.countOffset = 16 ∧ MadtKind.ioapic.pointerOffset = 40 ∧
      offsetOf MadtKind.ioapic.info 1 = 4 := by decide
  obtain ⟨hcountOff, hpointerOff, haddrOff⟩ := hoff
  obtain ⟨hcount, hbases, hinfo, harray⟩ := h
  rw [sizeofMadtInfo_eq] at hinfo
  have hpointer : m'.load64 (apicInfo + MadtKind.ioapic.pointerOffset) =
      m.load64 (apicInfo + MadtKind.ioapic.pointerOffset) :=
    Mem.load_congr fun x h1 h2 => hsame x (by omega) (by omega)
  refine ⟨?_, fun i hi => ?_, by rwa [sizeofMadtInfo_eq], by rwa [hpointer]⟩
  · rw [← hcount]
    unfold ioapicCount
    rw [Mem.load_congr fun x h1 h2 => hsame x (by omega) (by omega)]
  · rw [← hbases i hi]
    rw [helem] at harray
    unfold ioapicBase
    dsimp only
    rw [hpointer, helem, haddrOff, Mem.load_congr fun x h1 h2 => hsame x (by omega) (by omega)]

theorem IoApicsListed.base_of {done rest : List Nat} (h : IoApicsListed m apicInfo block (done ++ addr :: rest)) :
    done.length < ioapicCount m apicInfo ∧ ioapicBase m apicInfo done.length = addr := by
  have hlt : done.length < (done ++ addr :: rest).length := by simp
  refine ⟨h.count ▸ hlt, (h.bases _ hlt).trans ?_⟩
  rw [List.getElem_append_right le_rfl]
  simp

/-- The first loop adds up the tables. -/
theorem sumTables_spec (hbases : SetApart bases) : ∀ (rest done : List Nat) (fuel total : Nat) {s : Chips},
    IoApicsListed m apicInfo block (done ++ rest) → (∀ a ∈ rest, a ∈ bases) → rest.length < fuel →
      SameRegisters bases s s₀ →
      (sumTables m apicInfo fuel done.length total s).1 + sizeofIoapicInfo * rest.length =
        total + recordsSize rest s₀ ∧
      SameRegisters bases (sumTables m apicInfo fuel done.length total s).2 s₀
  | [], done, fuel + 1, total, s, h, _, _, hs => by
    rw [List.append_nil] at h
    unfold sumTables
    rw [h.count, if_neg (lt_irrefl _)]
    exact ⟨rfl, hs⟩
  | addr :: rest, done, fuel + 1, total, s, h, hin, hfuel, hs => by
    obtain ⟨hlt, hbase⟩ := h.base_of
    have haddr := hin addr List.mem_cons_self
    obtain ⟨hver, hs'⟩ := ioapicRead_spec hbases haddr hs ioapicVer
    rw [← List.singleton_append, ← List.append_assoc] at h
    obtain ⟨hsum, hregs⟩ := sumTables_spec hbases rest _ fuel (total + (s₀ addr).pins * redirectionEntry.size) h
      (fun a ha => hin a (List.mem_cons_of_mem addr ha))
      (Nat.lt_of_succ_lt_succ hfuel) hs'
    rw [List.length_append, List.length_singleton] at hsum hregs
    unfold sumTables
    rw [if_pos hlt, hbase]
    dsimp only
    have hver1 : BitVec.ofInt 8 ioapicVer = 1#8 := rfl
    rw [hver, hver1]
    refine ⟨?_, hregs⟩
    have hrest : recordsSize (addr :: rest) s₀ = (s₀ addr).recordSize + recordsSize rest s₀ := rfl
    have hone : (s₀ addr).recordSize = sizeofIoapicInfo + redirectionEntry.size * (s₀ addr).pins := rfl
    rw [hrest, hone, List.length_cons, Nat.mul_add, Nat.mul_one]
    rw [Nat.mul_comm (s₀ addr).pins] at hsum
    have hpins : (redirEntryCount ((s₀ addr).regs 1#8).value).toNat = (s₀ addr).pins := rfl
    rw [hpins, Nat.mul_comm (s₀ addr).pins]
    omega

theorem RecordsOf.nil (m : Mem) (start : Nat) (s : Chips) : RecordsOf m start start [] s := ⟨[], rfl, .nil⟩

/-- The second loop writes the records one behind the other. -/
theorem enableAll_spec (hbases : SetApart bases) : ∀ (rest done : List Nat) (fuel info : Nat) {m : Mem} {s : Chips},
    IoApicsListed m apicInfo block (done ++ rest) → (∀ a ∈ rest, a ∈ bases ∧ (s₀ a).pins ≤ maxPins) → rest.length < fuel →
      SameRegisters bases s s₀ → block.1 + block.2 ≤ info ∨ info + recordsSize rest s₀ ≤ block.1 →
      RecordsOf (enableAll apicInfo fuel done.length info m s).1 info (info + recordsSize rest s₀) rest s₀ ∧
        SameRegisters bases (enableAll apicInfo fuel done.length info m s).2 s₀ ∧
        ∀ x, x < info ∨ info + recordsSize rest s₀ ≤ x → (enableAll apicInfo fuel done.length info m s).1 x = m x
  | [], done, fuel + 1, info, m, s, h, _, _, hs, _ => by
    rw [List.append_nil] at h
    unfold enableAll
    rw [h.count, if_neg (lt_irrefl _)]
    exact ⟨.nil m info s₀, hs, fun _ _ => rfl⟩
  | addr :: rest, done, fuel + 1, info, m, s, h, hin, hfuel, hs, hapart => by
    obtain ⟨hlt, hbase⟩ := h.base_of
    obtain ⟨haddr, hpins⟩ := hin addr List.mem_cons_self
    have hrest : recordsSize (addr :: rest) s₀ = (s₀ addr).recordSize + recordsSize rest s₀ := rfl
    have hone := recordSize_eq (s₀ addr)
    rw [hrest] at hapart ⊢
    obtain ⟨hsize, hrecord, hs', hframe⟩ := enableIoApic_spec hbases haddr hs hpins info m
    obtain ⟨r, hr⟩ : ∃ r, enableIoApic addr info m s = r := ⟨_, rfl⟩
    rw [hr] at hsize hrecord hs' hframe
    have hlisted := h.congr fun x h1 h2 => hframe x (by omega)
    rw [← List.singleton_append, ← List.append_assoc] at hlisted
    obtain ⟨⟨infos, htiled, hall⟩, hregs, hlater⟩ := enableAll_spec hbases rest _ fuel
      (info + (s₀ addr).recordSize) hlisted (fun a ha => hin a (List.mem_cons_of_mem addr ha))
      (Nat.lt_of_succ_lt_succ hfuel) hs' (by omega)
    rw [List.length_append, List.length_singleton] at htiled hall hregs hlater
    unfold enableAll
    rw [if_pos hlt, hbase, hr]
    dsimp only
    rw [hsize]
    have hkept := hrecord.congr fun x _ h2 => hlater x (.inl h2)
    refine ⟨⟨info :: infos, ⟨rfl, ?_, ?_⟩, .cons hkept hall⟩, hregs, fun x hx => ?_⟩
    · have hfield := hkept.size
      show 0 < BitVec.toNat _
      rw [hfield]
      show 0 < (s₀ addr).recordSize
      omega
    · have hfield : _ = (s₀ addr).recordSize := hkept.size
      show Tiled _ (info + BitVec.toNat _) _ _
      rw [hfield, ← Nat.add_assoc]
      exact htiled
    · rw [hlater x (by omega), hframe x (by omega)]

theorem recordsSize_le : ∀ {addrs : List Nat}, (∀ a ∈ addrs, (s a).pins ≤ maxPins) →
    recordsSize addrs s ≤ 976 * addrs.length
  | [], _ => le_rfl
  | addr :: addrs, h => by
    have hpins : (s addr).pins ≤ 120 := h addr List.mem_cons_self
    have hone := recordSize_eq (s addr)
    have hrest := recordsSize_le fun a ha => h a (List.mem_cons_of_mem addr ha)
    have hsum : recordsSize (addr :: addrs) s = (s addr).recordSize + recordsSize addrs s := rfl
    rw [hsum, List.length_cons]
    omega

end

/-! ## Bringing them up -/

section
variable {addrs bs : List Nat} {apicInfo start stop p : Nat} {block : Nat × Nat} {k k₁ : Kernel} {s : Chips}

theorem IoApicsListed.length_lt {m : Mem} (h : IoApicsListed m apicInfo block addrs) : addrs.length < 2 ^ 32 := by
  rw [← h.count]
  exact (m.load (apicInfo + MadtKind.ioapic.countOffset) 4).isLt

/-- `enable_io_apics` with a block from the heap: it writes nothing but the records, which fill the block behind the count
of the descriptor, and changes no register of a chip. -/
theorem enableIoApics_spec (hinv : HeapInv start stop bs k.heap) (hblock : block ∈ k.heap.live)
    (hlisted : IoApicsListed k.heap.heap.mem apicInfo block addrs) (hapart : SetApart addrs)
    (hpins : ∀ a ∈ addrs, (s a).pins ≤ maxPins)
    (halloc : imalloc (sizeofIoapicDescriptor + recordsSize addrs s) k = .ok (p, k₁)) :
    ∃ k' s', enableIoApics apicInfo k s = .ok (p, k', s') ∧ SameRegisters addrs s' s ∧
      RecordsOf k'.heap.heap.mem (p + sizeofIoapicDescriptor) (p + sizeofIoapicDescriptor + recordsSize addrs s) addrs s ∧
      (∀ x, x < p + sizeofIoapicDescriptor ∨ p + sizeofIoapicDescriptor + recordsSize addrs s ≤ x →
        k'.heap.heap.mem x = k₁.heap.heap.mem x) ∧
      ∃ bs', HeapInv start stop bs' k'.heap := by
  obtain ⟨-, -, -, -, -, -, -, -, hdescriptor, happics⟩ := record_layout
  have hlen := hlisted.length_lt
  have hrounds : addrs.length < ioapicRounds := hlen
  have hsize := recordsSize_le hpins
  unfold enableIoApics
  generalize ioapicRounds = rounds at hrounds ⊢
  obtain ⟨heap, hserved, rfl⟩ := imalloc_eq_ok.1 halloc
  rw [hdescriptor] at halloc hserved ⊢
  have hkeeps := fun x => hinv.alloc_keeps (by omega) hserved hblock (x := x)
  obtain ⟨bs', hinv'⟩ := hinv.alloc (by omega) hserved
  have hlisted' : IoApicsListed heap.mem apicInfo block ([] ++ addrs) := hlisted.congr hkeeps
  -- the block is apart from the one that lists the chips
  have hne : block.1 ≠ p := fun heq => (List.pairwise_cons.1 hinv'.distinct).1 block hblock heq.symm
  have hside := hinv'.payloads_apart (List.mem_cons_of_mem _ hblock) List.mem_cons_self hne
  have hin : ∀ a ∈ addrs, a ∈ addrs := fun _ ha => ha
  have hsame : SameRegisters addrs s s := fun _ _ => rfl
  obtain ⟨hsum, hs₁⟩ := sumTables_spec hapart addrs [] rounds (sizeofIoapicInfo * addrs.length) hlisted hin hrounds hsame
  obtain ⟨hrecords, hregs, hframe⟩ := enableAll_spec hapart addrs [] rounds (p + 8) hlisted'
    (fun a ha => ⟨ha, hpins a ha⟩) hrounds hs₁ (by omega)
  rw [List.length_nil] at hsum hrecords hregs hframe
  have htotal : (sumTables k.heap.heap.mem apicInfo rounds 0 (sizeofIoapicInfo * addrs.length) s).1 =
      recordsSize addrs s := by omega
  obtain ⟨r, hr⟩ : ∃ r, enableAll apicInfo rounds 0 (p + 8) heap.mem
      (sumTables k.heap.heap.mem apicInfo rounds 0 (sizeofIoapicInfo * addrs.length) s).2 = r := ⟨_, rfl⟩
  rw [hr] at hrecords hregs hframe
  refine ⟨{ k with heap := ⟨{ heap with mem := r.1 }, (p, 8 + recordsSize addrs s) :: k.heap.live⟩ }, r.2, ?_, hregs,
    hrecords, hframe, ?_⟩
  · rw [hlisted.count]
    dsimp only
    rw [htotal, halloc]
    dsimp only [bind, Except.bind]
    rw [happics, hr]
    rfl
  · refine ⟨bs', hinv'.write fun x hx => hframe x ?_⟩
    have := hx _ List.mem_cons_self
    dsimp only at this
    omega

/-- `keyboard_ps2_init` finds the first chip through its record. -/
theorem keyboardPs2Init_eq {a : Nat} {rest : List Nat} {m : Mem} {stop : Nat} (ha : a < 2 ^ 64)
    (h : RecordsOf m (p + sizeofIoapicDescriptor) stop (a :: rest) s) :
    keyboardPs2Init p m = (RouteCall.route a 1 33 0 false false).stores := by
  obtain ⟨infos, htiled, hall⟩ := h
  cases hall with
  | cons hfirst _ =>
    obtain ⟨rfl, -⟩ := htiled
    have hdescriptor : sizeofIoapicDescriptor = offsetOf ioapicDescriptor 1 := rfl
    have hbase := hfirst.base
    rw [hdescriptor] at hbase
    unfold keyboardPs2Init
    rw [hbase, BitVec.toNat_ofNat, Nat.mod_eq_of_lt ha]
    rfl

/-- Both steps bring the chips up: the records, and the keyboard's pin with what `keyboard_ps2_init` gives it, no other
pin of a chip being touched. -/
structure BroughtUp (addrs : List Nat) (p : Nat) (s : Chips) (m : Mem) (s' : Chips) : Prop where
  records : RecordsOf m (p + sizeofIoapicDescriptor) (p + sizeofIoapicDescriptor + recordsSize addrs s) addrs s
  registers : SameRegisters addrs s' s
  keyboard : ∀ a rest, addrs = a :: rest → (s a).Routable 1 →
    let s'' := (keyboardPs2Init p m).foldl Chips.store s'
    ((s'' a).entry 1).Aims 33 0 false false ∧
      ∀ b ∈ addrs, ∀ q < maxPins, ¬(b = a ∧ q = 1) → (s'' b).entry q = (s b).entry q

/-- With a block from the heap `enable_io_apics` writes nothing but the records, which fill the block behind the count of
the descriptor one by one, and after `keyboard_ps2_init` interrupts of the keyboard go to vector 33. -/
theorem io_apics_brought_up (hinv : HeapInv start stop bs k.heap) (hblock : block ∈ k.heap.live)
    (hlisted : IoApicsListed k.heap.heap.mem apicInfo block addrs) (hapart : SetApart addrs)
    (hpins : ∀ a ∈ addrs, (s a).pins ≤ maxPins)
    (halloc : imalloc (sizeofIoapicDescriptor + recordsSize addrs s) k = .ok (p, k₁)) :
    ∃ k' s', enableIoApics apicInfo k s = .ok (p, k', s') ∧ BroughtUp addrs p s k'.heap.heap.mem s' ∧
      (∀ x, x < p + sizeofIoapicDescriptor ∨ p + sizeofIoapicDescriptor + recordsSize addrs s ≤ x →
        k'.heap.heap.mem x = k₁.heap.heap.mem x) ∧
      ∃ bs', HeapInv start stop bs' k'.heap := by
  obtain ⟨k', s', hrun, hregs, hrecords, hframe, hinv'⟩ :=
    enableIoApics_spec hinv hblock hlisted hapart hpins halloc
  refine ⟨k', s', hrun, ⟨hrecords, hregs, ?_⟩, hframe, hinv'⟩
  rintro a rest rfl hroutable
  have ha : a < 2 ^ 64 := by
    have hbase := hlisted.bases 0 (Nat.succ_pos _)
    rw [List.getElem_cons_zero] at hbase
    rw [← hbase]
    exact u64_lt _
  have hproper : (RouteCall.route a 1 33 0 false false).Proper (a :: rest) := 
    ⟨List.mem_cons_self, show (0 : Int) ≤ 1 by decide, show (1 : Int) < 120 by decide⟩
  have hsame : ∀ b ∈ a :: rest, ∀ q, (s' b).entry q = (s b).entry q := by
    intro b hb q
    unfold IoApicChip.entry
    rw [hregs b hb]
  have hwritten : (s' a).written 1 = (s a).written 1 := by
    unfold IoApicChip.written
    rw [hregs a List.mem_cons_self]
  rw [keyboardPs2Init_eq ha hrecords]
  refine ⟨?_, fun b hb q hq hne => ?_⟩
  · have hentry : _ = (s' a).written 1 _ := call_entry (s := s') hproper
    rw [hwritten] at hentry
    have haims := hroutable.aims a 1 33 0 false false
    rw [← hentry] at haims
    exact haims
  · rw [call_entry_other hapart hproper hb hq hne, hsame b hb q]

end

/-! ## A machine with one I/O APIC -/

/-- The heap of one page whose first block lists one chip. -/
def listedHeap : Heap :=
  let h := smallHeap.take 112 0x10010
  { h with mem := ((h.mem.store (0x10020 + 16) 4 1).store (0x10020 + 40) 8 0x10068).store (0x10068 + 4) 4 0xFEC00000 }

/-- The kernel with that heap, and its first block in use. -/
def listedKernel : Kernel := { freshKernel with heap := ⟨listedHeap, [(0x10020, 84)]⟩ }

theorem listedHeap_inv : ∃ bs, HeapInv 0x10010 (0x10010 + 4080) bs listedKernel.heap := by
  obtain ⟨hstart, hsize, hlimit⟩ := smallHeap_bounds
  have hinit : HeapInv 0x10010 (0x10010 + 4080) [0x10010] ⟨smallHeap, []⟩ := heapInv_init (by decide) smallHeap_mapped
  have htotal : totalSize 84 = 112 := by decide +kernel
  have hfits : smallHeap.Fits 112 0x10010 := by
    refine ⟨?_, ?_, by decide +kernel, by decide +kernel, fun _ => ?_⟩
    · unfold Heap.Readable
      decide +kernel
    · unfold Heap.More
      decide +kernel
    · unfold Heap.Readable
      decide +kernel
  have hserved : imallocAlocator 1 smallHeap 84 = .ok (some (add64 0x10010 metaDataSize, smallHeap.take 112 0x10010)) := by
    unfold imallocAlocator
    rw [htotal, hstart]
    exact imallocScan_stops (.fits hfits)
  have hpayload : add64 0x10010 metaDataSize = 0x10020 := by decide
  rw [hpayload] at hserved
  obtain ⟨bs, hinv⟩ := hinit.alloc (by decide) hserved
  refine ⟨bs, hinv.write fun x hx => ?_⟩
  have hout := hx (0x10020, 84) List.mem_cons_self
  dsimp only at hout
  rw [Mem.store_of_lt (by omega), Mem.store_of_lt (by omega), Mem.store_of_lt (by omega)]

/-- The records go to the second block. -/
theorem listedKernel_alloc : ∃ k₁, imalloc 40 listedKernel = .ok (0x10090, k₁) := by
  have htotal : totalSize 40 = 64 := by decide +kernel
  have hstart : listedHeap.heapStart = 0x10010 := by decide +kernel
  have hover : listedHeap.Over 0x10010 0x10080 := by
    refine ⟨?_, ?_, by decide +kernel, by decide +kernel⟩
    · unfold Heap.Readable
      decide +kernel
    · unfold Heap.More
      decide +kernel
  have hfits : listedHeap.Fits 64 0x10080 := by
    refine ⟨?_, ?_, by decide +kernel, by decide +kernel, fun _ => ?_⟩
    · unfold Heap.Readable
      decide +kernel
    · unfold Heap.More
      decide +kernel
    · unfold Heap.Readable
      decide +kernel
  have hpayload : add64 0x10080 metaDataSize = 0x10090 := by decide
  obtain ⟨fuel, hfuel⟩ : ∃ fuel, listedHeap.limit + 1 = fuel + 2 := ⟨listedHeap.limit - 1, by decide +kernel⟩
  have hserved : imallocAlocator (listedHeap.limit + 1) listedHeap 40 =
      .ok (some (0x10090, listedHeap.take 64 0x10080)) := by
    unfold imallocAlocator
    rw [htotal, hstart, hfuel, imallocScan_over hover, imallocScan_stops (.fits hfits), hpayload]
  exact ⟨_, imalloc_eq_ok.2 ⟨_, hserved, rfl⟩⟩

theorem listedKernel_listed :
    IoApicsListed listedKernel.heap.heap.mem 0x10020 (0x10020, 84) [0xFFFFFE00FEC00000] := by
  refine ⟨by decide +kernel, fun i hi => ?_, by decide, by decide +kernel⟩
  obtain rfl : i = 0 := by simpa using hi
  rw [List.getElem_cons_zero]
  decide +kernel

/-- The one chip is recorded, and its second pin goes to vector 33. -/
theorem io_apics_brought_up_one : ∃ k' s', enableIoApics 0x10020 listedKernel (fun _ => twoPins) = .ok (0x10090, k', s') ∧
    BroughtUp [0xFFFFFE00FEC00000] 0x10090 (fun _ => twoPins) k'.heap.heap.mem s' := by
  obtain ⟨bs, hinv⟩ := listedHeap_inv
  obtain ⟨k₁, halloc⟩ := listedKernel_alloc
  have hsize : sizeofIoapicDescriptor + recordsSize [0xFFFFFE00FEC00000] (fun _ => twoPins) = 40 := by decide +kernel
  rw [← hsize] at halloc
  obtain ⟨k', s', hrun, hup, -⟩ := io_apics_brought_up hinv List.mem_cons_self listedKernel_listed (oneChip_apart _)
    (fun _ _ => show twoPins.pins ≤ maxPins by decide +kernel) halloc
  exact ⟨k', s', hrun, hup⟩

end Icarus.Interrupts
