/-
The interrupt controllers of the machine (MADT.c): `handle_MADT` counts the entries of the table, takes one
block from the heap for all of its arrays, and fills them in a second pass over the same entries.
-/
import Icarus.Acpi.RootWalk
import Icarus.Base.Tiling
import Icarus.Processes.RunQueue
import Icarus.Processes.Thread

namespace Icarus.Acpi

open Icarus.Base Icarus.Memory Icarus.Processes

/-! ## Entries and records -/

/-- The kinds of entries `handle_MADT` keeps an array of. -/
inductive MadtKind
  | cpu | ioapic | iso | nmi | lapicNmi
  deriving DecidableEq, Repr

/-- `apic_tag_common`. -/
def apicTagCommon : Member := .struct (packed [.u8, .u8])

/-- `apic_flags`, the bit fields of 16 bits. -/
def apicFlags : Member := .struct (packed [.u16])

/-- `madt_info`: the address of the LAPIC, the flags, the five counts, the five pointers. -/
def madtInfo : List Member :=
  [.u64, .u32, .u32, .u32, .u32, .u32, .u32, .u64, .u64, .u64, .u64, .u64]

/-- `sizeof(madt_info)`. -/
def sizeofMadtInfo : Nat := sizeOfStruct madtInfo

/-- A member of one structure copied into a member of another. -/
structure FieldCopy where
  dst : Nat
  width : Nat
  src : Nat
  deriving DecidableEq, Repr

/-- Member `i` of a structure is assigned member `j` of an entry. -/
def fieldCopy (info entry : List Member) (ij : Nat × Nat) : FieldCopy :=
  ⟨offsetOf info ij.1, (info.getD ij.1 .u8).size, offsetOf entry ij.2⟩

namespace MadtKind

/-- The type byte of the entries. -/
def type : MadtKind → Nat
  | cpu => 0
  | ioapic => 1
  | iso => 2
  | nmi => 3
  | lapicNmi => 4

/-- The `case` of the `switch`. -/
def ofType : Nat → Option MadtKind
  | 0 => some cpu
  | 1 => some ioapic
  | 2 => some iso
  | 3 => some nmi
  | 4 => some lapicNmi
  | _ => none

/-- `apic_tag_type0` to `apic_tag_type4`. -/
def entry : MadtKind → List Member
  | cpu => packed [apicTagCommon, .u8, .u8, .u32]
  | ioapic => packed [apicTagCommon, .u8, .u8, .u32, .u32]
  | iso => packed [apicTagCommon, .u8, .u8, .u32, apicFlags]
  | nmi => packed [apicTagCommon, .u8, .u8, apicFlags, .u32]
  | lapicNmi => packed [apicTagCommon, .u8, apicFlags, .u8]

/-- `cpu_info`, `ioapic_conf`, `iso_info`, `nmi_info`, `lapic_nmi_info`. -/
def info : MadtKind → List Member
  | cpu => [.u8, .u8, .u32]
  | ioapic => [.u8, .u32, .u32]
  | iso => [.u8, .u8, .u32, apicFlags]
  | nmi => [.u32, apicFlags]
  | lapicNmi => [.u8, .u8, apicFlags]

/-- The assignments of the `case`: which member of the element is taken from which member of the entry. Both
ids of a processor are taken from `APIC_id`. -/
def assigned : MadtKind → List (Nat × Nat)
  | cpu => [(0, 2), (1, 2), (2, 3)]
  | ioapic => [(0, 1), (1, 3), (2, 4)]
  | iso => [(0, 1), (1, 2), (2, 3), (3, 4)]
  | nmi => [(0, 4), (1, 3)]
  | lapicNmi => [(0, 1), (1, 3), (2, 2)]

/-- The member of the entry that each member of the element is named after. -/
def namesake : MadtKind → List (Nat × Nat)
  | cpu => [(0, 1), (1, 2), (2, 3)]
  | ioapic => [(0, 1), (1, 3), (2, 4)]
  | iso => [(0, 1), (1, 2), (2, 3), (3, 4)]
  | nmi => [(0, 4), (1, 3)]
  | lapicNmi => [(0, 1), (1, 3), (2, 2)]

/-- The size of an element of the kind's array. -/
def elemSize (k : MadtKind) : Nat := sizeOfStruct k.info

/-- Where the count of the kind lies in `madt_info`. -/
def countOffset (k : MadtKind) : Nat := offsetOf madtInfo (2 + k.type)

/-- Where the pointer to the array of the kind lies. -/
def pointerOffset (k : MadtKind) : Nat := offsetOf madtInfo (7 + k.type)

end MadtKind

/-! ## The two passes -/

/-- The loop of both passes: one entry after the other, up to the end of the table or to one that does not
fit. -/
def forEntries {σ : Type} (body : (type p : Nat) → σ → σ) (table : Mem) (stop : Nat) : (fuel p : Nat) → σ → σ
  | 0, _, s => s
  | fuel + 1, p, s =>
    if p + 2 ≤ stop then
      let type := (table p).toNat
      let len := (table (p + 1)).toNat
      if len < 2 ∨ p + len > stop then s
      else forEntries body table stop fuel (p + len) (body type p s)
    else s

/-- A loop over the whole table; the entries start behind `flags`, and each moves on by two bytes or more. -/
def forMadt {σ : Type} (body : (type p : Nat) → σ → σ) (table : Mem) (header : Nat) (s : σ) : σ :=
  forEntries body table (header + tableLength table header) (tableLength table header) (header + 0x2C) s

/-- The first pass: `n_cpu`, `n_io`, `n_iso`, `n_nmi` and `n_lnmi`. -/
def countEntries (table : Mem) (header : Nat) : MadtKind → Nat :=
  forMadt (fun type _ n kind => if kind.type = type then u32 (n kind + 1) else n kind) table header fun _ => 0

/-- Where the array of a kind lies in the block: `cur`, moved behind `madt_info` and the arrays before. -/
def arrayOffset (n : MadtKind → Nat) (kind : MadtKind) : Nat :=
  let cpus := sizeofMadtInfo
  let ioapics := cpus + n .cpu * MadtKind.cpu.elemSize
  let isos := ioapics + n .ioapic * MadtKind.ioapic.elemSize
  let nmis := isos + n .iso * MadtKind.iso.elemSize
  let lapicNmis := nmis + n .nmi * MadtKind.nmi.elemSize
  match kind with
  | .cpu => cpus
  | .ioapic => ioapics
  | .iso => isos
  | .nmi => nmis
  | .lapicNmi => lapicNmis

/-- `total`. -/
def madtTotal (n : MadtKind → Nat) : Nat := arrayOffset n .lapicNmi + n .lapicNmi * MadtKind.lapicNmi.elemSize

/-- The members of an entry at `p` of the table copied into the element at `slot`. -/
def copyFields (table : Mem) (p slot : Nat) : List FieldCopy → Mem → Mem
  | [], m => m
  | f :: fs, m => copyFields table p slot fs (m.copy (slot + f.dst) table (p + f.src) f.width)

/-- The `case` of a kind in the second pass: the count goes up, and the element it counted so far is filled. -/
def MadtKind.fill (k : MadtKind) (table : Mem) (info p : Nat) (m : Mem) : Mem :=
  let count := m.load (info + k.countOffset) 4
  let slot := (m.load64 (info + k.pointerOffset)).toNat + k.elemSize * count.toNat
  let m := m.store (info + k.countOffset) 4 (count + 1#32)
  copyFields table p slot (k.assigned.map (fieldCopy k.info k.entry)) m

/-- The `switch` of the second pass. -/
def fillEntry (table : Mem) (info type p : Nat) (m : Mem) : Mem :=
  match MadtKind.ofType type with
  | some kind => kind.fill table info p m
  | none => if type = 5 then m.store64 info (table.load64 (p + 4)) else m

/-- The pointers to the arrays of the kinds, which follow each other in the block. -/
def storePointers (info : Nat) (n : MadtKind → Nat) : List MadtKind → Mem → Mem
  | [], m => m
  | k :: ks, m =>
    storePointers info n ks (m.store64 (info + k.pointerOffset) (BitVec.ofNat 64 (info + arrayOffset n k)))

/-- `Imemset` and the assignments before the second pass; the size passed to `Imemset` is that of the
variable `total`. -/
def initMadtInfo (table : Mem) (header info : Nat) (n : MadtKind → Nat) (m : Mem) : Mem :=
  let m := m.fill info 8 0
  let m := storePointers info n [.cpu, .ioapic, .iso, .nmi, .lapicNmi] m
  let m := m.store64 info ((table.load (header + 0x24) 4).setWidth 64)
  m.store (info + offsetOf madtInfo 1) 4 (table.load (header + 0x28) 4)

/-- What `handle_MADT` makes of the block. -/
def decodeMadt (table : Mem) (header info : Nat) (m : Mem) : Mem :=
  forMadt (fillEntry table info) table header (initMadtInfo table header info (countEntries table header) m)

/-- `map_mmio` of one page at each of the addresses. -/
def mapPages (addrs : List Nat) (k : Kernel) : Kernel :=
  addrs.foldl (fun k addr =>
    match mapMmio (iallocKframe · 1) k.sched.cr3 addr defaultPageSize (writeable ||| cacheDisabled) k.mem k.mmap with
    | (_, mem, mmap) => { k with mem, mmap }) k

/-- The addresses `handle_MADT` maps: the LAPIC's and those of the IO APICs. -/
def mappedAddrs (info : Nat) (m : Mem) : List Nat :=
  let ioapics := (m.load64 (info + MadtKind.ioapic.pointerOffset)).toNat
  (m.load64 info).toNat :: (List.range (m.load (info + MadtKind.ioapic.countOffset) 4).toNat).map fun i =>
    (m.load (ioapics + MadtKind.ioapic.elemSize * i + offsetOf MadtKind.ioapic.info 1) 4).toNat

/-- `handle_MADT` of the table at `header`: the new `APIC_INFO`, or nothing for `FRAME_ALLOC_FAILED`. The
table lies in the window for device memory, apart from the heap. -/
def handleMadt (table : Mem) (header : Nat) (k : Kernel) : Except Fault (Option Nat × Kernel) := do
  let (info, k) ← imalloc (madtTotal (countEntries table header)) k
  if info = 0 then return (none, k)
  let mem := decodeMadt table header info k.heap.heap.mem
  let k := { k with heap := { k.heap with heap := { k.heap.heap with mem } } }
  return (some info, mapPages (mappedAddrs info mem) k)

/-! ## The layout of the records -/

theorem ofType_eq_some {type : Nat} {kind : MadtKind} : MadtKind.ofType type = some kind ↔ kind.type = type := by
  constructor
  · intro h
    unfold MadtKind.ofType at h
    split at h <;> first | (cases h; rfl) | cases h
  · rintro rfl
    cases kind <;> rfl

theorem type_injective {k k' : MadtKind} (h : k.type = k'.type) : k = k' := by
  cases k <;> cases k' <;> first | rfl | cases h

@[simp] theorem sizeofMadtInfo_eq : sizeofMadtInfo = 72 := by decide

@[simp] theorem madt_flags_offset : offsetOf madtInfo 1 = 8 := by decide

theorem MadtKind.type_le (k : MadtKind) : k.type ≤ 4 := by cases k <;> decide

theorem MadtKind.countOffset_eq (k : MadtKind) : k.countOffset = 12 + 4 * k.type := by cases k <;> decide

theorem MadtKind.pointerOffset_eq (k : MadtKind) : k.pointerOffset = 32 + 8 * k.type := by cases k <;> decide

/-- The members assigned lie in the element, and none on another. -/
theorem MadtKind.assigned_layout (k : MadtKind) :
    (∀ f ∈ k.assigned.map (fieldCopy k.info k.entry), f.dst + f.width ≤ k.elemSize) ∧
    (k.assigned.map (fieldCopy k.info k.entry)).Pairwise fun f g =>
      f.dst + f.width ≤ g.dst ∨ g.dst + g.width ≤ f.dst := by
  cases k <;> decide

section
variable {table m : Mem} {p slot size : Nat} {fs : List FieldCopy}

/-- The element alone is written. -/
theorem copyFields_outside : ∀ {fs : List FieldCopy} {m : Mem}, (∀ f ∈ fs, f.dst + f.width ≤ size) →
    ∀ {x : Nat}, x < slot ∨ slot + size ≤ x → copyFields table p slot fs m x = m x
  | [], _, _, _, _ => rfl
  | f :: fs, m, hfs, x, hx => by
    have hf := hfs f List.mem_cons_self
    have hrest : copyFields table p slot fs (m.copy (slot + f.dst) table (p + f.src) f.width) x = _ :=
      copyFields_outside (fun g hg => hfs g (List.mem_cons_of_mem f hg)) hx
    exact hrest.trans (Mem.copy_of_lt (by omega))

theorem load_copyFields_outside (hfs : ∀ f ∈ fs, f.dst + f.width ≤ size) {a n : Nat}
    (h : a + n ≤ slot ∨ slot + size ≤ a) : (copyFields table p slot fs m).load a n = m.load a n :=
  Mem.load_congr fun x h1 h2 => copyFields_outside hfs (by omega)

/-- A member no assignment of the list touches. -/
theorem load_copyFields_apart : ∀ {fs : List FieldCopy} {m : Mem} {d w : Nat},
    (∀ f ∈ fs, d + w ≤ f.dst ∨ f.dst + f.width ≤ d) →
    (copyFields table p slot fs m).load (slot + d) w = m.load (slot + d) w
  | [], _, _, _, _ => rfl
  | f :: fs, m, d, w, hfs => by
    have hf := hfs f List.mem_cons_self
    have hrest : (copyFields table p slot fs (m.copy (slot + f.dst) table (p + f.src) f.width)).load (slot + d) w = _ :=
      load_copyFields_apart fun g hg => hfs g (List.mem_cons_of_mem f hg)
    exact hrest.trans (Mem.load_copy_disjoint (by omega))

/-- Every member holds what it was assigned. -/
theorem load_copyFields : ∀ {fs : List FieldCopy} {m : Mem},
    fs.Pairwise (fun f g => f.dst + f.width ≤ g.dst ∨ g.dst + g.width ≤ f.dst) →
    ∀ {f : FieldCopy}, f ∈ fs →
      (copyFields table p slot fs m).load (slot + f.dst) f.width = table.load (p + f.src) f.width
  | g :: fs, m, hpw, f, hf => by
    obtain ⟨hg, hpw⟩ := List.pairwise_cons.1 hpw
    rcases List.mem_cons.1 hf with rfl | hf
    · have hlater : (copyFields table p slot fs (m.copy (slot + f.dst) table (p + f.src) f.width)).load
          (slot + f.dst) f.width = _ := load_copyFields_apart hg
      have hcopy : (m.copy (slot + f.dst) table (p + f.src) f.width).load (slot + f.dst + 0) f.width =
          table.load (p + f.src + 0) f.width := Mem.load_copy_inside (by omega)
      exact hlater.trans hcopy
    · exact load_copyFields hpw hf

end

/-! ## The entries of a table -/

/-- The length byte of an entry. -/
def entryLen (table : Mem) (p : Nat) : Nat := (table (p + 1)).toNat

/-- `sizeof` of the entry type. -/
def prescribedLen : Nat → Option Nat
  | 5 => some (sizeOfStruct (packed [apicTagCommon, .u16, .u64]))
  | 9 => some (sizeOfStruct (packed [apicTagCommon, .u16, .u32, .u32, .u32]))
  | type => (MadtKind.ofType type).map fun kind => sizeOfStruct kind.entry

/-- A well-formed table: its entries, which start at `ps`, fill it, and each has the length its type
prescribes. -/
structure MadtImage (table : Mem) (header : Nat) (ps : List Nat) : Prop where
  entries : Tiled (entryLen table) (header + 0x2C) ps (header + tableLength table header)
  lengths : ∀ p ∈ ps, 2 ≤ entryLen table p ∧ ∀ n ∈ prescribedLen (table p).toNat, entryLen table p = n

/-- The entries of one type, in the order of the table. -/
def entriesOf (table : Mem) (ps : List Nat) (type : Nat) : List Nat := ps.filter fun p => (table p).toNat = type

section
variable {table : Mem} {header stop : Nat} {ps : List Nat} {σ : Type} {body : Nat → Nat → σ → σ}

theorem forEntries_foldl : ∀ {ps : List Nat} {p fuel : Nat} {s : σ}, Tiled (entryLen table) p ps stop →
    (∀ q ∈ ps, 2 ≤ entryLen table q) → ps.length ≤ fuel →
    forEntries body table stop fuel p s = ps.foldl (fun s q => body (table q).toNat q s) s
  | [], p, fuel, s, ht, _, _ => by
    have hp : p = stop := ht
    cases fuel with
    | zero => rfl
    | succ fuel =>
      unfold forEntries
      rw [if_neg (by omega)]
      rfl
  | q :: qs, p, fuel + 1, s, ⟨hq, _, ht⟩, hlen, hfuel => by
    subst hq
    have hq := hlen q List.mem_cons_self
    have hle := ht.le
    unfold entryLen at hq hle
    unfold forEntries
    rw [if_pos (by omega), if_neg (by omega)]
    exact forEntries_foldl ht (fun r hr => hlen r (List.mem_cons_of_mem q hr)) (by simpa using hfuel)

/-- Two bytes or more for each entry. -/
theorem tiled_length : ∀ {ps : List Nat} {p : Nat}, Tiled (entryLen table) p ps stop →
    (∀ q ∈ ps, 2 ≤ entryLen table q) → p + 2 * ps.length ≤ stop
  | [], p, ht, _ => Nat.le_of_eq ht
  | q :: qs, p, ⟨hq, _, ht⟩, hlen => by
    have hrest := tiled_length ht fun r hr => hlen r (List.mem_cons_of_mem q hr)
    have hq' := hlen q List.mem_cons_self
    subst hq
    rw [List.length_cons]
    omega

theorem MadtImage.length_lt (h : MadtImage table header ps) : ps.length < 2 ^ 31 := by
  have hlen := tiled_length h.entries fun q hq => (h.lengths q hq).1
  have hlt : tableLength table header < 2 ^ 32 := (table.load _ 4).isLt
  omega

/-- Both passes go through the entries. -/
theorem MadtImage.forMadt (h : MadtImage table header ps) (s : σ) :
    forMadt body table header s = ps.foldl (fun s q => body (table q).toNat q s) s := by
  have hlen := tiled_length h.entries fun q hq => (h.lengths q hq).1
  exact forEntries_foldl h.entries (fun q hq => (h.lengths q hq).1) (by omega)

theorem entriesOf_append {qs : List Nat} {q type : Nat} :
    entriesOf table (qs ++ [q]) type = entriesOf table qs type ++ if (table q).toNat = type then [q] else [] := by
  unfold entriesOf
  rw [List.filter_append]
  congr 1
  by_cases h : (table q).toNat = type <;> simp [h]

/-- An entry of a known type is the last of its kind. -/
theorem entriesOf_of_some {qs : List Nat} {q : Nat} {k : MadtKind} (hk : MadtKind.ofType (table q).toNat = some k)
    (k' : MadtKind) :
    entriesOf table (qs ++ [q]) k'.type = entriesOf table qs k'.type ++ if k = k' then [q] else [] := by
  have hq := ofType_eq_some.1 hk
  rw [entriesOf_append]
  by_cases hkk : k = k'
  · rw [if_pos (hkk ▸ hq.symm), if_pos hkk]
  · rw [if_neg fun he => hkk (type_injective (hq.trans he)), if_neg hkk]

/-- An entry of no known type is none of any kind. -/
theorem entriesOf_of_none {qs : List Nat} {q : Nat} (hk : MadtKind.ofType (table q).toNat = none) (k : MadtKind) :
    entriesOf table (qs ++ [q]) k.type = entriesOf table qs k.type := by
  have hne : (table q).toNat ≠ k.type := by
    intro he
    rw [ofType_eq_some.2 he.symm] at hk
    cases hk
  rw [entriesOf_append, if_neg hne, List.append_nil]

theorem countEntries_foldl {kind : MadtKind} : ∀ {ps : List Nat} {n : MadtKind → Nat}, n kind + ps.length < 2 ^ 32 →
    ps.foldl (fun n q kind => if kind.type = (table q).toNat then u32 (n kind + 1) else n kind) n kind =
      n kind + (entriesOf table ps kind.type).length
  | [], _, _ => rfl
  | q :: qs, n, hn => by
    rw [List.length_cons] at hn
    rw [List.foldl_cons, countEntries_foldl]
    · unfold entriesOf
      by_cases hq : kind.type = (table q).toNat
      · rw [if_pos hq, u32_of_lt (by omega), List.filter_cons_of_pos (by simpa using hq.symm), List.length_cons]
        omega
      · rw [if_neg hq, List.filter_cons_of_neg (by simpa using fun h => hq h.symm)]
    · by_cases hq : kind.type = (table q).toNat
      · rw [if_pos hq, u32_of_lt (by omega)]
        omega
      · rw [if_neg hq]
        omega

/-- The first pass counts the entries of each kind. -/
theorem MadtImage.counts (h : MadtImage table header ps) (kind : MadtKind) :
    countEntries table header kind = (entriesOf table ps kind.type).length := by
  have hlt := h.length_lt
  unfold countEntries
  rw [h.forMadt, countEntries_foldl (by omega), Nat.zero_add]

end

/-! ## The arrays in the block -/

section
variable {n : MadtKind → Nat} {k k' : MadtKind} {j j' : Nat}

theorem elemSizes : MadtKind.cpu.elemSize = 8 ∧ MadtKind.ioapic.elemSize = 12 ∧ MadtKind.iso.elemSize = 12 ∧
    MadtKind.nmi.elemSize = 8 ∧ MadtKind.lapicNmi.elemSize = 4 := by decide

theorem arrayOffset_ge (n : MadtKind → Nat) (k : MadtKind) : 72 ≤ arrayOffset n k := by
  cases k <;> simp only [arrayOffset, sizeofMadtInfo_eq] <;> omega

theorem element_bound (hj : j < n k) : arrayOffset n k + k.elemSize * j + k.elemSize ≤ madtTotal n := by
  obtain ⟨h1, h2, h3, h4, h5⟩ := elemSizes
  cases k <;> simp only [madtTotal, arrayOffset, sizeofMadtInfo_eq, h1, h2, h3, h4, h5] <;> omega

theorem arrayOffset_le_total (n : MadtKind → Nat) (k : MadtKind) : arrayOffset n k ≤ madtTotal n := by
  cases k <;> simp only [madtTotal, arrayOffset] <;> omega

/-- No element lies on another. -/
theorem elements_apart (hj : j < n k) (hj' : j' < n k') (hne : k ≠ k' ∨ j ≠ j') :
    arrayOffset n k + k.elemSize * j + k.elemSize ≤ arrayOffset n k' + k'.elemSize * j' ∨
    arrayOffset n k' + k'.elemSize * j' + k'.elemSize ≤ arrayOffset n k + k.elemSize * j := by
  obtain ⟨h1, h2, h3, h4, h5⟩ := elemSizes
  cases k <;> cases k' <;>
    simp only [arrayOffset, sizeofMadtInfo_eq, h1, h2, h3, h4, h5, ne_eq, not_true, false_or] at hne ⊢ <;> omega

end

/-! ## One entry -/

section
variable {table m : Mem} {info p : Nat} {k : MadtKind}

/-- The element that is filled next. -/
def MadtKind.nextSlot (k : MadtKind) (info : Nat) (m : Mem) : Nat :=
  (m.load64 (info + k.pointerOffset)).toNat + k.elemSize * (m.load (info + k.countOffset) 4).toNat

/-- Apart from the count and the element nothing is written. -/
theorem fill_of_lt {x : Nat} (hc : x < info + k.countOffset ∨ info + k.countOffset + 4 ≤ x)
    (hs : x < k.nextSlot info m ∨ k.nextSlot info m + k.elemSize ≤ x) : k.fill table info p m x = m x := by
  have hcopy : k.fill table info p m x = m.store (info + k.countOffset) 4 (m.load (info + k.countOffset) 4 + 1#32) x :=
    copyFields_outside k.assigned_layout.1 hs
  exact hcopy.trans (Mem.store_of_lt (by omega))

theorem load_fill_apart {a w : Nat} (hc : a + w ≤ info + k.countOffset ∨ info + k.countOffset + 4 ≤ a)
    (hs : a + w ≤ k.nextSlot info m ∨ k.nextSlot info m + k.elemSize ≤ a) :
    (k.fill table info p m).load a w = m.load a w :=
  Mem.load_congr fun x h1 h2 => fill_of_lt (by omega) (by omega)

theorem load_fill_count (hs : info + 72 ≤ k.nextSlot info m) :
    (k.fill table info p m).load (info + k.countOffset) 4 = m.load (info + k.countOffset) 4 + 1#32 := by
  have htype := k.type_le
  have hbelow : info + k.countOffset + 4 ≤ k.nextSlot info m := by
    rw [k.countOffset_eq]
    omega
  have hcopy : (k.fill table info p m).load (info + k.countOffset) 4 =
      (m.store (info + k.countOffset) 4 (m.load (info + k.countOffset) 4 + 1#32)).load (info + k.countOffset) 4 :=
    load_copyFields_outside k.assigned_layout.1 (Or.inl hbelow)
  exact hcopy.trans (Mem.load_store_same _ _ 4 _)

/-- The element holds what the `case` assigns. -/
theorem load_fill_slot {f : FieldCopy} (hf : f ∈ k.assigned.map (fieldCopy k.info k.entry)) :
    (k.fill table info p m).load (k.nextSlot info m + f.dst) f.width = table.load (p + f.src) f.width :=
  load_copyFields k.assigned_layout.2 hf

end

/-! ## The second pass -/

/-- The address in the last entry of type 5, or else the one of the fixed part. -/
def lapicAddr (table : Mem) (header : Nat) (ps : List Nat) : BitVec 64 :=
  match (entriesOf table ps 5).getLast? with
  | some p => table.load64 (p + 4)
  | none => (table.load (header + 0x24) 4).setWidth 64

/-- The header of the block once the entries `ps` are filled in, where its counts started from `g`. -/
structure Headed (table : Mem) (header info : Nat) (g : MadtKind → BitVec 32) (base : MadtKind → Nat) (ps : List Nat)
    (m : Mem) : Prop where
  counts : ∀ k : MadtKind,
    m.load (info + k.countOffset) 4 = g k + BitVec.ofNat 32 (entriesOf table ps k.type).length
  pointers : ∀ k : MadtKind, (m.load64 (info + k.pointerOffset)).toNat = base k
  lapic : m.load64 info = lapicAddr table header ps

section
variable {table m : Mem} {header info : Nat} {g : MadtKind → BitVec 32} {base : MadtKind → Nat} {ps : List Nat} {q : Nat}

theorem Headed.slot_ge (h : Headed table header info g base ps m) (hbase : ∀ k, info + 72 ≤ base k) (k : MadtKind) :
    info + 72 ≤ k.nextSlot info m := by
  have hk := hbase k
  unfold MadtKind.nextSlot
  rw [h.pointers k]
  omega

theorem lapicAddr_other (hq : (table q).toNat ≠ 5) : lapicAddr table header (ps ++ [q]) = lapicAddr table header ps := by
  unfold lapicAddr
  rw [entriesOf_append, if_neg hq, List.append_nil]

theorem lapicAddr_last (hq : (table q).toNat = 5) : lapicAddr table header (ps ++ [q]) = table.load64 (q + 4) := by
  unfold lapicAddr
  rw [entriesOf_append, if_pos hq, List.getLast?_append]
  rfl

/-- The header after one more entry. -/
theorem Headed.step (h : Headed table header info g base ps m) (hbase : ∀ k, info + 72 ≤ base k) :
    Headed table header info g base (ps ++ [q]) (fillEntry table info (table q).toNat q m) := by
  unfold fillEntry
  cases hk : MadtKind.ofType (table q).toNat with
  | some k =>
    have hq := ofType_eq_some.1 hk
    have hslot := h.slot_ge hbase k
    have htype := k.type_le
    have hcount := k.countOffset_eq
    refine ⟨?_, ?_, ?_⟩
    · intro k'
      have hcount' := k'.countOffset_eq
      have htype' := k'.type_le
      rw [entriesOf_of_some hk]
      by_cases hkk : k = k'
      · subst hkk
        rw [load_fill_count hslot, h.counts k, if_pos rfl, List.length_append, List.length_singleton,
          BitVec.ofNat_add, BitVec.add_assoc]
      · have hne : k.type ≠ k'.type := fun he => hkk (type_injective he)
        rw [load_fill_apart (by omega) (by omega), h.counts k', if_neg hkk, List.append_nil]
    · intro k'
      have hpointer := k'.pointerOffset_eq
      have htype' := k'.type_le
      have hsame : (k.fill table info q m).load64 (info + k'.pointerOffset) = m.load64 (info + k'.pointerOffset) :=
        load_fill_apart (by omega) (by omega)
      rw [hsame, h.pointers k']
    · have hsame : (k.fill table info q m).load64 info = m.load64 info := load_fill_apart (by omega) (by omega)
      rw [hsame, h.lapic, lapicAddr_other (by omega)]
  | none =>
    by_cases h5 : (table q).toNat = 5
    · simp only [if_pos h5]
      refine ⟨?_, ?_, ?_⟩
      · intro k
        have hcount := k.countOffset_eq
        rw [entriesOf_of_none hk, Mem.load_store_disjoint _ (by omega), h.counts k]
      · intro k
        have hpointer := k.pointerOffset_eq
        rw [Mem.load64_store64_disjoint _ (by omega), h.pointers k]
      · rw [lapicAddr_last h5, Mem.load64_store64_same]
    · simp only [if_neg h5]
      refine ⟨?_, h.pointers, ?_⟩
      · intro k
        rw [entriesOf_of_none hk, h.counts k]
      · rw [lapicAddr_other h5, h.lapic]

/-- The header after all entries. -/
theorem Headed.run (h : Headed table header info g base [] m) (hbase : ∀ k, info + 72 ≤ base k) (ps : List Nat) :
    Headed table header info g base ps (ps.foldl (fun m q => fillEntry table info (table q).toNat q m) m) := by
  induction ps using List.reverseRecOn with
  | nil => exact h
  | append_singleton ps q ih =>
    rw [List.foldl_append]
    exact ih.step hbase

end

/-- The arrays and the bytes outside the block of `n`, once the entries `ps` are filled in. -/
structure Filled (table : Mem) (info : Nat) (n : MadtKind → Nat) (ps : List Nat) (m₀ m : Mem) : Prop where
  arrays : ∀ (k : MadtKind) (j : Nat) (hj : j < (entriesOf table ps k.type).length),
    ∀ f ∈ k.assigned.map (fieldCopy k.info k.entry),
      m.load (info + arrayOffset n k + k.elemSize * j + f.dst) f.width =
        table.load ((entriesOf table ps k.type)[j] + f.src) f.width
  frame : ∀ x, x < info ∨ info + madtTotal n ≤ x → m x = m₀ x

section
variable {table m₀ m : Mem} {header info : Nat} {n : MadtKind → Nat} {ps : List Nat} {q : Nat}

/-- An entry of a known type is filled into the next element of its array. -/
theorem Filled.fill {k : MadtKind} (h : Filled table info n ps m₀ m)
    (hh : Headed table header info (fun _ => 0#32) (fun k => info + arrayOffset n k) ps m)
    (hn : ∀ k : MadtKind, (entriesOf table (ps ++ [q]) k.type).length ≤ n k) (hlt : ∀ k, n k < 2 ^ 32)
    (hk : MadtKind.ofType (table q).toNat = some k) : Filled table info n (ps ++ [q]) m₀ (k.fill table info q m) := by
  have htype := k.type_le
  have hcount := k.countOffset_eq
  have happend : entriesOf table (ps ++ [q]) k.type = entriesOf table ps k.type ++ [q] := by
    rw [entriesOf_of_some hk, if_pos rfl]
  have hnk : (entriesOf table ps k.type).length < n k := by
    have hle := hn k
    rw [happend, List.length_append, List.length_singleton] at hle
    exact hle
  have hslot : k.nextSlot info m = info + arrayOffset n k + k.elemSize * (entriesOf table ps k.type).length := by
    have hltk := hlt k
    unfold MadtKind.nextSlot
    rw [hh.pointers k, hh.counts k, BitVec.zero_add, BitVec.toNat_ofNat, Nat.mod_eq_of_lt (by omega)]
  have hbound := element_bound hnk
  have hge := arrayOffset_ge n k
  refine ⟨fun k' j hj f hf => ?_, fun x hx => ?_⟩
  · have hlayout := k'.assigned_layout.1 f hf
    have hge' := arrayOffset_ge n k'
    by_cases hnew : k = k' ∧ j = (entriesOf table ps k.type).length
    · obtain ⟨rfl, rfl⟩ := hnew
      rw [← hslot, load_fill_slot hf]
      congr 2
      simp [happend]
    · -- an element from before lies apart from the new one
      have hold : j < (entriesOf table ps k'.type).length := by
        rw [entriesOf_of_some hk, List.length_append] at hj
        by_cases hkk : k = k'
        · subst hkk
          have hjne : j ≠ (entriesOf table ps k.type).length := fun he => hnew ⟨rfl, he⟩
          rw [if_pos rfl, List.length_singleton] at hj
          omega
        · rw [if_neg hkk, List.length_nil] at hj
          exact hj
      have hsame : (entriesOf table (ps ++ [q]) k'.type)[j] = (entriesOf table ps k'.type)[j] := by
        simp only [entriesOf_append, List.getElem_append_left hold]
      have hn' : j < n k' := lt_of_lt_of_le hj (hn k')
      have hne : k ≠ k' ∨ (entriesOf table ps k.type).length ≠ j := by
        by_cases hkk : k = k'
        · exact Or.inr fun he => hnew ⟨hkk, he.symm⟩
        · exact Or.inl hkk
      have hapart := elements_apart hnk hn' hne
      rw [load_fill_apart (by omega) (by omega), h.arrays k' j hold f hf, hsame]
  · have hsame : k.fill table info q m x = m x := fill_of_lt (by omega) (by omega)
    exact hsame.trans (h.frame x hx)

/-- One more entry, when the counts so far are those of the entries. -/
theorem Filled.step (h : Filled table info n ps m₀ m)
    (hh : Headed table header info (fun _ => 0#32) (fun k => info + arrayOffset n k) ps m)
    (hn : ∀ k : MadtKind, (entriesOf table (ps ++ [q]) k.type).length ≤ n k) (hlt : ∀ k, n k < 2 ^ 32) :
    Filled table info n (ps ++ [q]) m₀ (fillEntry table info (table q).toNat q m) := by
  unfold fillEntry
  cases hk : MadtKind.ofType (table q).toNat with
  | some k => exact h.fill hh hn hlt hk
  | none =>
    have hlarge : 72 ≤ madtTotal n := le_trans (arrayOffset_ge n .lapicNmi) (Nat.le_add_right _ _)
    refine ⟨fun k j hj f hf => ?_, fun x hx => ?_⟩
    · have hge := arrayOffset_ge n k
      simp only [entriesOf_of_none hk] at hj ⊢
      split_ifs
      · rw [Mem.load_store_disjoint _ (by omega), h.arrays k j hj f hf]
      · exact h.arrays k j hj f hf
    · dsimp only
      split_ifs
      · exact (Mem.store_of_lt (by omega)).trans (h.frame x hx)
      · exact h.frame x hx

end

/-! ## The block -/

section
variable {table m : Mem} {header info : Nat} {n : MadtKind → Nat} {ps : List Nat}

theorem storePointers_of_lt : ∀ {ks : List MadtKind} {m : Mem} {x : Nat}, x < info + 32 ∨ info + 72 ≤ x →
    storePointers info n ks m x = m x
  | [], _, _, _ => rfl
  | k :: ks, m, x, hx => by
    have hpointer := k.pointerOffset_eq
    have htype := k.type_le
    have hrest : storePointers info n ks (m.store64 (info + k.pointerOffset) (BitVec.ofNat 64 (info + arrayOffset n k))) x
        = _ := storePointers_of_lt hx
    exact hrest.trans (Mem.store_of_lt (by omega))

theorem load_storePointers_apart {ks : List MadtKind} {a w : Nat} (h : a + w ≤ info + 32 ∨ info + 72 ≤ a) :
    (storePointers info n ks m).load a w = m.load a w :=
  Mem.load_congr fun x h1 h2 => storePointers_of_lt (by omega)

theorem load_storePointers_other {k : MadtKind} : ∀ {ks : List MadtKind} {m : Mem}, k ∉ ks →
    (storePointers info n ks m).load64 (info + k.pointerOffset) = m.load64 (info + k.pointerOffset)
  | [], _, _ => rfl
  | k' :: ks, m, hk => by
    have hpointer := k.pointerOffset_eq
    have hpointer' := k'.pointerOffset_eq
    have htype : k.type ≠ k'.type := fun he => hk (type_injective he ▸ List.mem_cons_self)
    exact (load_storePointers_other fun h => hk (List.mem_cons_of_mem k' h)).trans
      (Mem.load64_store64_disjoint m (by omega))

theorem load_storePointers {k : MadtKind} : ∀ {ks : List MadtKind} {m : Mem}, k ∈ ks →
    (storePointers info n ks m).load64 (info + k.pointerOffset) = BitVec.ofNat 64 (info + arrayOffset n k)
  | k' :: ks, m, hk => by
    unfold storePointers
    by_cases hlater : k ∈ ks
    · exact load_storePointers hlater
    · obtain rfl | hk := List.mem_cons.1 hk
      · exact (load_storePointers_other hlater).trans (Mem.load64_store64_same m _ _)
      · exact absurd hk hlater

/-- A count keeps what the block held before. -/
theorem initMadtInfo_count (k : MadtKind) :
    (initMadtInfo table header info n m).load (info + k.countOffset) 4 = m.load (info + k.countOffset) 4 := by
  have hcount := k.countOffset_eq
  have htype := k.type_le
  unfold initMadtInfo
  rw [madt_flags_offset, Mem.load_store_disjoint _ (by omega), Mem.load_store_disjoint _ (by omega),
    load_storePointers_apart (by omega), Mem.load_fill_disjoint (by omega)]

theorem initMadtInfo_pointer (k : MadtKind) :
    (initMadtInfo table header info n m).load64 (info + k.pointerOffset) =
      BitVec.ofNat 64 (info + arrayOffset n k) := by
  have hpointer := k.pointerOffset_eq
  have hmem : k ∈ [MadtKind.cpu, .ioapic, .iso, .nmi, .lapicNmi] := by cases k <;> decide
  unfold initMadtInfo
  rw [madt_flags_offset]
  exact (Mem.load_store_disjoint _ (by omega)).trans
    ((Mem.load64_store64_disjoint _ (by omega)).trans (load_storePointers hmem))

theorem initMadtInfo_lapic :
    (initMadtInfo table header info n m).load64 info = (table.load (header + 0x24) 4).setWidth 64 := by
  unfold initMadtInfo
  rw [madt_flags_offset]
  exact (Mem.load_store_disjoint _ (by omega)).trans (Mem.load64_store64_same _ _ _)

theorem initMadtInfo_of_lt {x : Nat} (hx : x < info ∨ info + 72 ≤ x) : initMadtInfo table header info n m x = m x := by
  unfold initMadtInfo
  rw [madt_flags_offset]
  exact (Mem.store_of_lt (by omega)).trans ((Mem.store_of_lt (by omega)).trans
    ((storePointers_of_lt (by omega)).trans (Mem.fill_of_lt (by omega))))

/-- The header before the second pass: the counts are what the block held before. -/
theorem initMadtInfo_headed (hfit : info + madtTotal n < 2 ^ 64) :
    Headed table header info (fun k => m.load (info + k.countOffset) 4) (fun k => info + arrayOffset n k) []
      (initMadtInfo table header info n m) := by
  refine ⟨?_, ?_, initMadtInfo_lapic⟩
  · intro k
    rw [initMadtInfo_count]
    exact (BitVec.add_zero _).symm
  · intro k
    have hle := arrayOffset_le_total n k
    rw [initMadtInfo_pointer, BitVec.toNat_ofNat, Nat.mod_eq_of_lt (by omega)]

theorem initMadtInfo_filled : Filled table info n [] m (initMadtInfo table header info n m) := by
  have hlarge : 72 ≤ madtTotal n := le_trans (arrayOffset_ge n .lapicNmi) (Nat.le_add_right _ _)
  refine ⟨?_, fun x hx => initMadtInfo_of_lt (by omega)⟩
  intro k j hj
  exact absurd hj (Nat.not_lt_zero j)

/-- The block after both passes, when its counts were zero before. -/
theorem MadtImage.filled (h : MadtImage table header ps) (hfit : info + madtTotal (countEntries table header) < 2 ^ 64)
    (hzero : ∀ k : MadtKind, m.load (info + k.countOffset) 4 = 0#32) :
    Filled table info (countEntries table header) ps m (decodeMadt table header info m) := by
  unfold decodeMadt
  rw [h.forMadt]
  have hlt := h.length_lt
  have hn : ∀ k, countEntries table header k = (entriesOf table ps k.type).length := h.counts
  have hhead := @initMadtInfo_headed table m header info (countEntries table header) hfit
  simp only [hzero] at hhead
  have hinit := @initMadtInfo_filled table m header info (countEntries table header)
  generalize countEntries table header = n at hn hhead hinit
  generalize initMadtInfo table header info n m = m' at hhead hinit
  have hrun : ∀ qs, qs <+: ps →
      Filled table info n qs m (qs.foldl (fun m q => fillEntry table info (table q).toNat q m) m') := by
    intro qs
    induction qs using List.reverseRecOn with
    | nil => exact fun _ => hinit
    | append_singleton qs q ih =>
      intro hpre
      rw [List.foldl_append]
      refine (ih ((List.prefix_append qs [q]).trans hpre)).step
        (hhead.run (fun k => by have := arrayOffset_ge n k; omega) qs) ?_ ?_
      · intro k
        rw [hn k]
        exact (hpre.filter _).length_le
      · intro k
        have hle : (entriesOf table ps k.type).length ≤ ps.length := List.length_filter_le _ _
        rw [hn k]
        omega
  exact hrun ps (List.prefix_refl ps)

end

/-! ## What the block holds -/

/-- The block at `info` describes the entries `ps`: each count, each member of each element of the arrays
from the member of its own entry it is named after, and the address of the LAPIC. -/
structure Decoded (table : Mem) (header info : Nat) (ps : List Nat) (m : Mem) : Prop where
  counts : ∀ k : MadtKind, (m.load (info + k.countOffset) 4).toNat = (entriesOf table ps k.type).length
  arrays : ∀ (k : MadtKind) (j : Nat) (hj : j < (entriesOf table ps k.type).length),
    ∀ f ∈ k.namesake.map (fieldCopy k.info k.entry),
      m.load ((m.load64 (info + k.pointerOffset)).toNat + k.elemSize * j + f.dst) f.width =
        table.load ((entriesOf table ps k.type)[j] + f.src) f.width
  lapic : m.load64 info = lapicAddr table header ps

/-- Where the processor id of ACPI goes and where it is. -/
def acpiIdField : FieldCopy := ⟨0, 1, 2⟩

/-- Where the code takes it from. -/
def apicIdField : FieldCopy := ⟨0, 1, 3⟩

theorem namesake_assigned (k : MadtKind) : ∀ f ∈ k.namesake.map (fieldCopy k.info k.entry),
    f ∈ k.assigned.map (fieldCopy k.info k.entry) ∨ k = .cpu ∧ f = acpiIdField := by
  cases k <;> decide

theorem load_one_eq {m m' : Mem} {a b : Nat} : m.load a 1 = m'.load b 1 ↔ m a = m' b := by
  constructor
  · intro h
    apply BitVec.eq_of_getLsbD_eq
    intro i hi
    have hbit : (m.load a 1).getLsbD i = (m'.load b 1).getLsbD i := by rw [h]
    rwa [Mem.load_getLsbD _ _ _ _ (by omega), Mem.load_getLsbD _ _ _ _ (by omega), Nat.div_eq_of_lt hi,
      Nat.mod_eq_of_lt hi] at hbit
  · intro h
    apply Mem.load_shift
    intro x hx
    obtain rfl : x = 0 := by omega
    exact h

theorem mapPages_heap (addrs : List Nat) : ∀ k : Kernel, (mapPages addrs k).heap = k.heap := by
  unfold mapPages
  induction addrs with
  | nil => exact fun _ => rfl
  | cons addr addrs ih =>
    intro k
    rw [List.foldl_cons, ih]

section
variable {table : Mem} {header info : Nat} {ps : List Nat} {k k₁ k' : Kernel}

/-- With a block from the heap the call returns, and the heap holds what the two passes make of it. -/
theorem handleMadt_ok (halloc : imalloc (madtTotal (countEntries table header)) k = .ok (info, k₁)) (h0 : info ≠ 0) :
    ∃ k', handleMadt table header k = .ok (some info, k') ∧
      k'.heap.heap.mem = decodeMadt table header info k₁.heap.heap.mem := by
  unfold handleMadt
  rw [halloc]
  refine ⟨_, if_neg h0, ?_⟩
  rw [mapPages_heap]

theorem MadtImage.headed (h : MadtImage table header ps) {m : Mem}
    (hfit : info + madtTotal (countEntries table header) < 2 ^ 64) :
    Headed table header info (fun kind => m.load (info + kind.countOffset) 4)
      (fun kind => info + arrayOffset (countEntries table header) kind) ps (decodeMadt table header info m) := by
  unfold decodeMadt
  rw [h.forMadt]
  refine (initMadtInfo_headed hfit).run ?_ ps
  intro kind
  have hge := arrayOffset_ge (countEntries table header) kind
  omega

/-- A count that comes out right started from zero. -/
theorem Headed.zero_of_count {g : MadtKind → BitVec 32} {base : MadtKind → Nat} {m : Mem}
    (h : Headed table header info g base ps m) {kind : MadtKind}
    (hcount : (m.load (info + kind.countOffset) 4).toNat = (entriesOf table ps kind.type).length) : g kind = 0#32 := by
  have hsum := congrArg BitVec.toNat (h.counts kind)
  rw [hcount, BitVec.toNat_add, BitVec.toNat_ofNat] at hsum
  have hlt : (entriesOf table ps kind.type).length < 2 ^ 32 := hcount ▸ (m.load (info + kind.countOffset) 4).isLt
  have hg := (g kind).isLt
  apply BitVec.eq_of_toNat_eq
  rw [Nat.mod_eq_of_lt hlt] at hsum
  show (g kind).toNat = 0
  omega

/-- For a well-formed table and a block from the heap the result describes the entries, and nothing else is
written, exactly when the counts in the block were zero before and every processor has one and the same
number as its two ids. -/
theorem madt_decoded_iff (hmadt : MadtImage table header ps)
    (halloc : imalloc (madtTotal (countEntries table header)) k = .ok (info, k₁)) (h0 : info ≠ 0)
    (hfit : info + madtTotal (countEntries table header) < 2 ^ 64) :
    (∃ k', handleMadt table header k = .ok (some info, k') ∧ Decoded table header info ps k'.heap.heap.mem ∧
      ∀ x, x < info ∨ info + madtTotal (countEntries table header) ≤ x →
        k'.heap.heap.mem x = k₁.heap.heap.mem x) ↔
    (∀ kind : MadtKind, k₁.heap.heap.mem.load (info + kind.countOffset) 4 = 0#32) ∧
      ∀ p ∈ ps, (table p).toNat = MadtKind.cpu.type → table (p + 2) = table (p + 3) := by
  obtain ⟨k', hrun, hmem⟩ := handleMadt_ok halloc h0
  have hhead := hmadt.headed (m := k₁.heap.heap.mem) hfit
  rw [← hmem] at hhead
  constructor
  · rintro ⟨k'', hrun', hdec, -⟩
    rw [hrun] at hrun'
    cases hrun'
    have hzero : ∀ kind : MadtKind, k₁.heap.heap.mem.load (info + kind.countOffset) 4 = 0#32 :=
      fun kind => hhead.zero_of_count (hdec.counts kind)
    refine ⟨hzero, ?_⟩
    intro p hp htype
    have hfilled := hmadt.filled hfit hzero
    rw [← hmem] at hfilled
    have hentry : p ∈ entriesOf table ps MadtKind.cpu.type := by
      unfold entriesOf
      rw [List.mem_filter]
      exact ⟨hp, decide_eq_true htype⟩
    obtain ⟨j, hj, rfl⟩ := List.getElem_of_mem hentry
    -- both identifiers are stored from the same byte of the entry
    have hmeant := hdec.arrays .cpu j hj acpiIdField (by decide)
    have hstored := hfilled.arrays .cpu j hj apicIdField (by decide)
    rw [hhead.pointers .cpu] at hmeant
    exact load_one_eq.1 (hmeant.symm.trans hstored)
  · rintro ⟨hzero, hids⟩
    have hfilled := hmadt.filled hfit hzero
    rw [← hmem] at hfilled
    refine ⟨k', hrun, ⟨?_, ?_, hhead.lapic⟩, hfilled.frame⟩
    · intro kind
      have hlt := hmadt.length_lt
      have hle : (entriesOf table ps kind.type).length ≤ ps.length := List.length_filter_le _ _
      rw [hhead.counts kind, hzero kind, BitVec.zero_add, BitVec.toNat_ofNat, Nat.mod_eq_of_lt (by omega)]
    · intro kind j hj f hf
      rw [hhead.pointers kind]
      rcases namesake_assigned kind f hf with hassigned | ⟨rfl, rfl⟩
      · exact hfilled.arrays kind j hj f hassigned
      · have hstored := hfilled.arrays .cpu j hj apicIdField (by decide)
        have hentry : (entriesOf table ps MadtKind.cpu.type)[j] ∈ entriesOf table ps MadtKind.cpu.type :=
          List.getElem_mem hj
        obtain ⟨hp, htype⟩ := List.mem_filter.1 hentry
        exact hstored.trans (load_one_eq.2 (hids _ hp (of_decide_eq_true htype)).symm)

end

/-! ## A machine with one processor -/

/-- A table at 0 with one entry, for a processor. -/
def oneCpuTable (acpiId apicId : BitVec 8) : Mem :=
  let m : Mem := fun _ => 0
  let m := m.store 4 4 52
  let m := m.store 0x24 4 0xFEE00000
  ((m.store 0x2D 1 8).store 0x2E 1 acpiId).store 0x2F 1 apicId

/-- A kernel whose heap has not been used. -/
def freshKernel : Kernel where
  mem := fun _ => 0
  mmap := ⟨0, [], ⟨0, fun _ => 0⟩⟩
  heap := ⟨smallHeap, []⟩
  sched := idle
  tidGen := 0
  pidGen := 0

/-- The block of 80 bytes for one processor. -/
theorem freshKernel_alloc : ∃ k₁, imalloc 80 freshKernel = .ok (0x10020, k₁) ∧
    k₁.heap.heap.mem = splitBlock smallHeap.mem 0x10010 96 := by
  obtain ⟨hstart, hsize, -⟩ := smallHeap_bounds
  have htotal : totalSize 80 = 96 := by decide +kernel
  have hroot : blockSize smallHeap.mem 0x10010 = 4080 := by decide +kernel
  have hfree : allocated smallHeap.mem 0x10010 = false := by decide +kernel
  have hadd : add64 0x10010 4080 < add64 0x10010 4096 := by decide
  have hnext : add64 0x10010 96 = 0x10070 := by decide
  have hpayload : add64 0x10010 metaDataSize = 0x10020 := by decide
  have ht₁ : smallHeap.touch 0x10010 = .ok () := smallHeap_touch (by decide) (by decide)
  have ht₂ : smallHeap.touch 0x10070 = .ok () := smallHeap_touch (by decide) (by decide)
  have hscan : imallocAlocator (smallHeap.limit + 1) smallHeap 80 =
      .ok (some (0x10020, { smallHeap with mem := splitBlock smallHeap.mem 0x10010 96 })) := by
    unfold imallocAlocator imallocScan
    rw [htotal, hstart, ht₁, hroot, hfree, hsize, hpayload, hnext, ht₂]
    dsimp only [bind, Except.bind]
    rw [if_pos hadd, if_neg (by decide), if_pos (by decide)]
    rfl
  unfold imalloc
  rw [show freshKernel.heap.heap = smallHeap from rfl, hscan]
  exact ⟨_, rfl, rfl⟩

theorem oneCpuTable_image {acpiId apicId : BitVec 8} (hlen : tableLength (oneCpuTable acpiId apicId) 0 = 52)
    (hentry : entryLen (oneCpuTable acpiId apicId) 0x2C = 8) (htype : oneCpuTable acpiId apicId 0x2C = 0) :
    MadtImage (oneCpuTable acpiId apicId) 0 [0x2C] := by
  refine ⟨⟨rfl, by rw [hentry]; decide, ?_⟩, ?_⟩
  · show 0 + 0x2C + entryLen (oneCpuTable acpiId apicId) (0 + 0x2C) = 0 + tableLength (oneCpuTable acpiId apicId) 0
    rw [Nat.zero_add, hentry, hlen]
  · intro p hp
    rw [List.mem_singleton.1 hp, hentry, htype]
    decide

/-- One processor with the number 3 for both. -/
theorem one_cpu_decoded : ∃ k₁ k',
    imalloc (madtTotal (countEntries (oneCpuTable 3 3) 0)) freshKernel = .ok (0x10020, k₁) ∧
    handleMadt (oneCpuTable 3 3) 0 freshKernel = .ok (some 0x10020, k') ∧
    Decoded (oneCpuTable 3 3) 0 0x10020 [0x2C] k'.heap.heap.mem := by
  obtain ⟨k₁, halloc, hmem⟩ := freshKernel_alloc
  have htotal : madtTotal (countEntries (oneCpuTable 3 3) 0) = 80 := by decide +kernel
  have hzero : ∀ kind : MadtKind, k₁.heap.heap.mem.load (0x10020 + kind.countOffset) 4 = 0#32 := by
    intro kind
    rw [hmem]
    cases kind <;> decide +kernel
  have himage : MadtImage (oneCpuTable 3 3) 0 [0x2C] :=
    oneCpuTable_image (by decide +kernel) (by decide +kernel) (by decide +kernel)
  rw [← htotal] at halloc
  obtain ⟨k', hrun, hdec, -⟩ := (madt_decoded_iff himage halloc (by decide) (by rw [htotal]; decide)).2
    ⟨hzero, by decide +kernel⟩
  exact ⟨k₁, k', halloc, hrun, hdec⟩

/-- One processor with the ACPI id 1 and the APIC id 0, in a block of zeros: both ids come out as 0. -/
theorem one_cpu_misread : MadtImage (oneCpuTable 1 0) 0 [0x2C] ∧
    ∃ k₁, imalloc (madtTotal (countEntries (oneCpuTable 1 0) 0)) freshKernel = .ok (0x10020, k₁) ∧
      (∀ kind : MadtKind, k₁.heap.heap.mem.load (0x10020 + kind.countOffset) 4 = 0#32) ∧
      ∃ k', handleMadt (oneCpuTable 1 0) 0 freshKernel = .ok (some 0x10020, k') ∧
        ¬Decoded (oneCpuTable 1 0) 0 0x10020 [0x2C] k'.heap.heap.mem := by
  obtain ⟨k₁, halloc, hmem⟩ := freshKernel_alloc
  have htotal : madtTotal (countEntries (oneCpuTable 1 0) 0) = 80 := by decide +kernel
  have himage : MadtImage (oneCpuTable 1 0) 0 [0x2C] :=
    oneCpuTable_image (by decide +kernel) (by decide +kernel) (by decide +kernel)
  have hzero : ∀ kind : MadtKind, k₁.heap.heap.mem.load (0x10020 + kind.countOffset) 4 = 0#32 := by
    intro kind
    rw [hmem]
    cases kind <;> decide +kernel
  rw [← htotal] at halloc
  obtain ⟨k', hrun, hmem'⟩ := handleMadt_ok halloc (by decide)
  refine ⟨himage, k₁, halloc, hzero, k', hrun, ?_⟩
  intro hdec
  have hfield := hdec.arrays .cpu 0 (by decide +kernel) acpiIdField (by decide)
  rw [hmem', hmem] at hfield
  exact absurd hfield (by decide +kernel)

end Icarus.Acpi
