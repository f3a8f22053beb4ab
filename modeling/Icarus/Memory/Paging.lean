/-
`page_in` of paging.c and the walk of the MMU. Tables are read and written through the direct map, so
that a table is named by its physical address and the memory is indexed by physical addresses.
-/
import Icarus.Memory.MemMap
import Icarus.Memory.PageEntry

namespace Icarus.Memory

open Icarus.Base

/-! ## Tables -/

/-- Entry `index` of the table at `table`. -/
def entryAt (m : Mem) (table index : Nat) : Entry := m.load64 (table + 8 * index)

/-- Writes entry `index` of the table at `table`. -/
def setEntry (m : Mem) (table index : Nat) (e : Entry) : Mem := m.store64 (table + 8 * index) e

/-- `VA_INDEX_MASK`. -/
def vaIndexMask : Nat := 0x1FF

/-- `VA_PML4_INDEX`. -/
def vaPml4Index (va : Nat) : Nat := (va >>> 39) &&& vaIndexMask

/-- `VA_PDPT_INDEX`. -/
def vaPdptIndex (va : Nat) : Nat := (va >>> 30) &&& vaIndexMask

/-- `VA_PD_INDEX`. -/
def vaPdIndex (va : Nat) : Nat := (va >>> 21) &&& vaIndexMask

/-- `VA_PT_INDEX`. -/
def vaPtIndex (va : Nat) : Nat := (va >>> 12) &&& vaIndexMask

/-! ## `page_in` -/

section
variable {σ : Type} (alloc : σ → Nat × σ)

/-- The step `page_in` makes at each of the upper levels, with `alloc` for `ialloc_kframe(1, ..)`: a
missing table is allocated and zeroed, the permissions are added, and the next table is named; nothing
when the allocation failed. -/
def enterTable (permissions table index : Nat) (m : Mem) (s : σ) : Option Nat × Mem × σ :=
  if (entryAt m table index).present then
    let m := setEntry m table index (applyUpperPerms permissions (entryAt m table index))
    (some (entryAt m table index).tableAddr, m, s)
  else
    let (next, s) := alloc s
    if next = frameAllocFailed then (none, m, s)
    else
      let m := m.fill next defaultPageSize 0
      let m := setEntry m table index (((entryAt m table index).setPagePpn (next >>> 12)).setPresent true)
      let m := setEntry m table index (applyUpperPerms permissions (entryAt m table index))
      (some (entryAt m table index).tableAddr, m, s)

/-- The entry of a page of the two large sizes. -/
def largeLeaf (permissions physAddr : Nat) (e : Entry) : Entry :=
  let e := applyLeafPerms permissions e
  let e := e.setHuge true
  let e := e.setPagePpn (physAddr >>> 12)
  e.setPresent true

/-- The entry of a 4 KiB page. -/
def defaultLeaf (permissions physAddr : Nat) (e : Entry) : Entry :=
  let e := applyLeafPerms permissions e
  let e := e.setAccessed false
  let e := e.setDirty false
  let e := e.setPagePpn (physAddr >>> 12)
  e.setPresent true

/-- `page_in`. -/
def pageIn (pml4 virtAddr physAddr pageSize permissions : Nat) (m : Mem) (s : σ) : Int × Mem × σ :=
  match enterTable alloc permissions pml4 (vaPml4Index virtAddr) m s with
  | (none, m, s) => (-1, m, s)
  | (some pdptTable, m, s) =>
    let index := vaPdptIndex virtAddr
    if pageSize = superPs then
      (0, setEntry m pdptTable index (largeLeaf permissions physAddr (entryAt m pdptTable index)), s)
    else
      match enterTable alloc permissions pdptTable index m s with
      | (none, m, s) => (-1, m, s)
      | (some pdTable, m, s) =>
        let index := vaPdIndex virtAddr
        if pageSize = hugePs then
          (0, setEntry m pdTable index (largeLeaf permissions physAddr (entryAt m pdTable index)), s)
        else
          match enterTable alloc permissions pdTable index m s with
          | (none, m, s) => (-1, m, s)
          | (some ptTable, m, s) =>
            let index := vaPtIndex virtAddr
            (0, setEntry m ptTable index (defaultLeaf permissions physAddr (entryAt m ptTable index)), s)

/-! ## The state of the allocator -/

section
variable {Inv : σ → Prop} (halloc : ∀ s, Inv s → Inv (alloc s).2)
include halloc

theorem enterTable_inv {permissions table index : Nat} {m : Mem} {s : σ} (h : Inv s) :
    Inv (enterTable alloc permissions table index m s).2.2 := by
  unfold enterTable
  split_ifs
  · exact h
  · dsimp only
    split_ifs
    · exact halloc s h
    · exact halloc s h

/-- What every allocation keeps, `page_in` keeps. -/
theorem pageIn_inv {pml4 virtAddr physAddr pageSize permissions : Nat} {m : Mem} {s : σ} (h : Inv s) :
    Inv (pageIn alloc pml4 virtAddr physAddr pageSize permissions m s).2.2 := by
  unfold pageIn
  have h1 : Inv (enterTable alloc permissions pml4 (vaPml4Index virtAddr) m s).2.2 := enterTable_inv alloc halloc h
  generalize enterTable alloc permissions pml4 (vaPml4Index virtAddr) m s = r1 at h1 ⊢
  obtain ⟨_ | pdpt, m1, s1⟩ := r1
  · exact h1
  have h2 : Inv (enterTable alloc permissions pdpt (vaPdptIndex virtAddr) m1 s1).2.2 := enterTable_inv alloc halloc h1
  dsimp only
  by_cases hsuper : pageSize = superPs
  · rw [if_pos hsuper]
    exact h1
  rw [if_neg hsuper]
  generalize enterTable alloc permissions pdpt (vaPdptIndex virtAddr) m1 s1 = r2 at h2 ⊢
  obtain ⟨_ | pd, m2, s2⟩ := r2
  · exact h2
  have h3 : Inv (enterTable alloc permissions pd (vaPdIndex virtAddr) m2 s2).2.2 := enterTable_inv alloc halloc h2
  dsimp only
  by_cases hhuge : pageSize = hugePs
  · rw [if_pos hhuge]
    exact h2
  rw [if_neg hhuge]
  generalize enterTable alloc permissions pd (vaPdIndex virtAddr) m2 s2 = r3 at h3 ⊢
  obtain ⟨_ | pt, m3, s3⟩ := r3
  · exact h3
  · exact h3

end

end

/-! ## The walk of the MMU -/

/-- The index of an address at a level: 3 in the PML4, 0 in the page table. -/
def vaIndex (va level : Nat) : Nat := va / 2 ^ (12 + 9 * level) % 512

/-- A present entry ends the walk in the page table, and in the two levels above with `huge`. -/
def Entry.EndsWalk (e : Entry) (level : Nat) : Prop := level = 0 ∨ level ≤ 2 ∧ e.huge = true

instance (e : Entry) (level : Nat) : Decidable (e.EndsWalk level) :=
  inferInstanceAs (Decidable (_ ∨ _))

/-- What a walk found: the entries it passed, the one that maps the page, and the level of that one. -/
structure Walk where
  upper : List Entry
  leaf : Entry
  level : Nat

/-- The walk through `level` levels from the table at `table` on. -/
def mmuWalk (m : Mem) : (level : Nat) → (table va : Nat) → Option Walk
  | 0, _, _ => none
  | level + 1, table, va =>
    let e := entryAt m table (vaIndex va level)
    if e.present = false then none
    else if e.EndsWalk level then some ⟨[], e, level⟩
    else (mmuWalk m level e.frame va).map fun w => { w with upper := e :: w.upper }

namespace Walk

/-- The 4 KiB frame of `va` under the leaf: large pages keep more of the address. -/
def frame (w : Walk) (va : Nat) : Nat :=
  w.leaf.frame / 2 ^ (12 + 9 * w.level) * 2 ^ (12 + 9 * w.level) + va % 2 ^ (12 + 9 * w.level) / 4096 * 4096

/-- User code may access the page when every entry on the path allows it. -/
def userAccess (w : Walk) : Bool := w.upper.all Entry.userAccess && w.leaf.userAccess

/-- The page may be written when every entry on the path allows it. -/
def writeable (w : Walk) : Bool := w.upper.all Entry.writeable && w.leaf.writeable

/-- One entry on the path is enough to forbid execution. -/
def executionDisabled (w : Walk) : Bool := w.upper.any Entry.executionDisabled || w.leaf.executionDisabled

/-- The caching of a page is what its own entry says. -/
def writeThrough (w : Walk) : Bool := w.leaf.writeThrough

/-- The same of `cache_disabled`. -/
def cacheDisabled (w : Walk) : Bool := w.leaf.cacheDisabled

end Walk

/-- The frame a root table maps an address to. -/
def translate (m : Mem) (pml4 va : Nat) : Option Nat := (mmuWalk m 4 pml4 va).map fun w => w.frame va

end Icarus.Memory
