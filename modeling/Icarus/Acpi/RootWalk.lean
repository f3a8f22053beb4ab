/-
The walks over the root tables (ACPI.c): the XSDT of ACPI 2.0 with 64 bit pointers and the RSDT of ACPI 1.0
with 32 bit pointers, each calling `handle_table` on every table it names.
-/
import Icarus.Base.Layout
import Icarus.Memory.Mmio

namespace Icarus.Acpi

open Icarus.Base Icarus.Memory

/-! ## The tables -/

/-- `struct RSDP_t`. -/
def rsdpMembers : List Member := packed [.array 8 .u8, .u8, .array 6 .u8, .u8, .u32]

/-- `struct XSDP_t`. -/
def xsdpMembers : List Member :=
  packed [.array 8 .u8, .u8, .array 6 .u8, .u8, .u32, .u32, .u64, .u8, .array 3 .u8]

/-- `struct ACPISDTHeader`. -/
def acpiSdtHeader : List Member :=
  [.array 4 .u8, .u32, .u8, .u8, .array 6 .u8, .array 8 .u8, .u32, .u32, .u32]

/-- `sizeof(struct ACPISDTHeader)`. -/
def sizeofHeader : Nat := sizeOfStruct acpiSdtHeader

/-- `h->Length`. -/
def tableLength (m : Mem) (h : Nat) : Nat := (m.load (h + offsetOf acpiSdtHeader 1) 4).toNat

/-- `struct XSDT`. Its attribute asks for an alignment of at least 4, which the pointers exceed. -/
def xsdtMembers : List Member := [.struct acpiSdtHeader, .array 0 .u64]

/-- `struct RSDT`. -/
def rsdtMembers : List Member := packed [.struct acpiSdtHeader, .array 0 .u32]

@[simp] theorem sizeofHeader_eq : sizeofHeader = 36 := by decide

/-- The compiler moves the 64 bit pointers to a multiple of eight, four bytes behind the header. -/
@[simp] theorem xsdt_pointers_offset : offsetOf xsdtMembers 1 = 40 := by decide

@[simp] theorem rsdt_pointers_offset : offsetOf rsdtMembers 1 = 36 := by decide

/-! ## The walks -/

/-- What a walk returns, the state it leaves, the tables it called `handle_table` on, and the offsets in
the root table it read pointers at. -/
structure Walk (σ : Type) where
  ret : Int
  state : σ
  calls : List Nat
  reads : List Nat

/-- The `int` a `size_t` becomes. -/
def toInt32 (x : Nat) : Int := (BitVec.ofNat 32 x).toInt

/-- The round of entry `i`: the pointer at `at'` in the table is read and `handle_table` called. -/
def Walk.handle {σ : Type} (w : Walk σ) (handleTable : Nat → σ → Int × σ) (m : Mem) (table at' width : Nat) :
    Int × Walk σ :=
  let h := mmioPhysToVirt (m.load (table + at') width).toNat
  let called := handleTable h w.state
  (called.1, { w with state := called.2, calls := w.calls ++ [h], reads := w.reads ++ [at'] })

/-- The loop of both walks from entry `i` on, `rounds` entries being left: the pointers of `width` bytes
start at `offset` in the table. -/
def walkEntries {σ : Type} (handleTable : Nat → σ → Int × σ) (m : Mem) (table offset width : Nat) :
    (rounds i : Nat) → Walk σ → Walk σ
  | 0, _, w => { w with ret := 0 }
  | rounds + 1, i, w =>
    let handled := w.handle handleTable m table (offset + width * i) width
    if handled.1 ≠ 0 then { handled.2 with ret := -1 }
    else walkEntries handleTable m table offset width rounds (i + 1) handled.2

/-- `categoriseTablesXSDT`. -/
def categoriseTablesXsdt {σ : Type} (handleTable : Nat → σ → Int × σ) (m : Mem) (xsdt : Nat) (s : σ) : Walk σ :=
  let entries := toInt32 (sub64 (tableLength m xsdt) sizeofHeader / 8)
  walkEntries handleTable m xsdt (offsetOf xsdtMembers 1) 8 entries.toNat 0 ⟨0, s, [], []⟩

/-- `categoriseTablesRSDT`. -/
def categoriseTablesRsdt {σ : Type} (handleTable : Nat → σ → Int × σ) (m : Mem) (rsdt : Nat) (s : σ) : Walk σ :=
  let entries := toInt32 (sub64 (tableLength m rsdt) sizeofHeader / 4)
  walkEntries handleTable m rsdt (offsetOf rsdtMembers 1) 4 entries.toNat 0 ⟨0, s, [], []⟩

/-! ## What a walk visits -/

section
variable {σ : Type} {handleTable : Nat → σ → Int × σ} {m : Mem} {table offset width : Nat}

/-- The tables at the physical addresses `ps` are handled one after the other, up to the first that fails. -/
def visitTables (handleTable : Nat → σ → Int × σ) : List Nat → σ → Int × σ × List Nat
  | [], s => (0, s, [])
  | p :: ps, s =>
    let called := handleTable (mmioPhysToVirt p) s
    if called.1 ≠ 0 then (-1, called.2, [mmioPhysToVirt p])
    else
      let rest := visitTables handleTable ps called.2
      (rest.1, rest.2.1, mmioPhysToVirt p :: rest.2.2)

/-- The loop visits the tables whose addresses lie where it looks for them. -/
theorem walkEntries_visits : ∀ (ps : List Nat) (i : Nat) (w : Walk σ),
    (∀ j (hj : j < ps.length), (m.load (table + (offset + width * (i + j))) width).toNat = ps[j]) →
    (walkEntries handleTable m table offset width ps.length i w).ret = (visitTables handleTable ps w.state).1 ∧
    (walkEntries handleTable m table offset width ps.length i w).state = (visitTables handleTable ps w.state).2.1 ∧
    (walkEntries handleTable m table offset width ps.length i w).calls =
      w.calls ++ (visitTables handleTable ps w.state).2.2
  | [], i, w, _ => by simp [walkEntries, visitTables]
  | p :: ps, i, w, hp => by
    have hhead : (m.load (table + (offset + width * i)) width).toNat = p := hp 0 (by simp)
    have htail : ∀ j (hj : j < ps.length),
        (m.load (table + (offset + width * (i + 1 + j))) width).toNat = ps[j] := by
      intro j hj
      have hnext := hp (j + 1) (by simpa using hj)
      rw [show i + (j + 1) = i + 1 + j by omega] at hnext
      simpa using hnext
    simp only [List.length_cons, walkEntries, visitTables, Walk.handle, hhead]
    by_cases hfail : (handleTable (mmioPhysToVirt p) w.state).1 ≠ 0
    · simp [hfail]
    · obtain ⟨h1, h2, h3⟩ := walkEntries_visits ps (i + 1)
        (w.handle handleTable m table (offset + width * i) width).2 htail
      simp only [Walk.handle, hhead] at h1 h2 h3
      rw [if_neg hfail, if_neg hfail]
      refine ⟨h1, h2, ?_⟩
      rw [h3, List.append_assoc]
      rfl

/-- Every pointer is read in one of the rounds. -/
theorem walkEntries_reads : ∀ (rounds i : Nat) (w : Walk σ) {a : Nat},
    a ∈ (walkEntries handleTable m table offset width rounds i w).reads →
      a ∈ w.reads ∨ ∃ j < i + rounds, a = offset + width * j
  | 0, i, w, a, ha => Or.inl ha
  | rounds + 1, i, w, a, ha => by
    have hnew : a ∈ w.reads ++ [offset + width * i] →
        a ∈ w.reads ∨ ∃ j < i + (rounds + 1), a = offset + width * j := by
      intro h
      rcases List.mem_append.1 h with h | h
      · exact Or.inl h
      · exact Or.inr ⟨i, by omega, List.mem_singleton.1 h⟩
    unfold walkEntries at ha
    simp only at ha
    split at ha
    · exact hnew ha
    · rcases walkEntries_reads rounds (i + 1) _ ha with h | ⟨j, hj, rfl⟩
      · exact hnew h
      · exact Or.inr ⟨j, by omega, rfl⟩

theorem walkEntries_reads_mono : ∀ (rounds i : Nat) (w : Walk σ) {a : Nat}, a ∈ w.reads →
    a ∈ (walkEntries handleTable m table offset width rounds i w).reads
  | 0, _, _, _, ha => ha
  | rounds + 1, i, w, a, ha => by
    unfold walkEntries
    simp only
    split
    · exact List.mem_append_left _ ha
    · exact walkEntries_reads_mono rounds (i + 1) _ (List.mem_append_left _ ha)

/-- A walk no table stops reads every pointer. -/
theorem walkEntries_reads_all (hok : ∀ h s, (handleTable h s).1 = 0) : ∀ (rounds i : Nat) (w : Walk σ) {j : Nat},
    i ≤ j → j < i + rounds →
      offset + width * j ∈ (walkEntries handleTable m table offset width rounds i w).reads
  | 0, i, w, j, h1, h2 => by omega
  | rounds + 1, i, w, j, h1, h2 => by
    have hpass : ¬(w.handle handleTable m table (offset + width * i) width).1 ≠ 0 := not_not.2 (hok _ _)
    unfold walkEntries
    simp only
    rw [if_neg hpass]
    rcases Nat.eq_or_lt_of_le h1 with rfl | hlt
    · exact walkEntries_reads_mono rounds (i + 1) _ (List.mem_append_right _ (List.mem_singleton_self _))
    · exact walkEntries_reads_all hok rounds (i + 1) _ hlt (by omega)

end

/-! ## Root tables in memory -/

/-- A root table over the pointers `ps` of `width` bytes each, which lie directly behind its header. -/
structure RootTable (m : Mem) (table width : Nat) (ps : List Nat) : Prop where
  length : tableLength m table = sizeofHeader + width * ps.length
  pointers : ∀ i (hi : i < ps.length), (m.load (table + (sizeofHeader + width * i)) width).toNat = ps[i]

/-- No byte of a pointer the walk reads is at or beyond the table's `Length`. -/
def Walk.WithinLength {σ : Type} (w : Walk σ) (m : Mem) (table width : Nat) : Prop :=
  ∀ a ∈ w.reads, a + width ≤ tableLength m table

section
variable {m : Mem} {table width : Nat} {ps : List Nat}

/-- The number of entries the walks compute from `Length`. -/
theorem RootTable.entries (h : RootTable m table width ps) (hw : 4 ≤ width) :
    (toInt32 (sub64 (tableLength m table) sizeofHeader / width)).toNat = ps.length := by
  have hlen := h.length
  have hlt : tableLength m table < 2 ^ 32 := (m.load _ 4).isLt
  have hsub : sub64 (tableLength m table) sizeofHeader = width * ps.length := by
    rw [sub64_of_le (by omega) (by omega)]
    omega
  rw [hsub, Nat.mul_div_cancel_left _ (by omega)]
  have hcount : 4 * ps.length ≤ width * ps.length := Nat.mul_le_mul_right _ hw
  have hmsb : (BitVec.ofNat 32 ps.length).toNat = ps.length := by
    rw [BitVec.toNat_ofNat, Nat.mod_eq_of_lt (by omega)]
  unfold toInt32
  rw [BitVec.toInt_eq_toNat_of_lt (by omega), hmsb, Int.toNat_natCast]

/-- A walk handles the tables with these addresses, and reads no pointer beyond the end of its table. -/
structure Walk.Visits {σ : Type} (w : Walk σ) (handleTable : Nat → σ → Int × σ) (s : σ) (m : Mem) (table width : Nat)
    (ps : List Nat) : Prop where
  ret : w.ret = (visitTables handleTable ps s).1
  state : w.state = (visitTables handleTable ps s).2.1
  calls : w.calls = (visitTables handleTable ps s).2.2
  within : w.WithinLength m table width

/-- The RSDT's walk visits the tables it lists. -/
theorem RootTable.rsdt_walk (h : RootTable m table 4 ps) {σ : Type} (handleTable : Nat → σ → Int × σ) (s : σ) :
    (categoriseTablesRsdt handleTable m table s).Visits handleTable s m table 4 ps := by
  unfold categoriseTablesRsdt
  simp only [h.entries (le_refl 4), rsdt_pointers_offset]
  obtain ⟨h1, h2, h3⟩ := @walkEntries_visits σ handleTable m table 36 4 ps 0 ⟨0, s, [], []⟩
    fun j hj => by simpa using h.pointers j hj
  refine ⟨h1, h2, by simpa using h3, ?_⟩
  intro a ha
  rcases walkEntries_reads ps.length 0 _ ha with ha | ⟨j, hj, rfl⟩
  · cases ha
  · rw [h.length, sizeofHeader_eq]
    omega

/-- The XSDT's walk runs past the end of a table with any pointer, whose last one it never sees whole. -/
theorem RootTable.xsdt_overrun (h : RootTable m table 8 ps) (hne : ps ≠ []) {σ : Type}
    {handleTable : Nat → σ → Int × σ} (hok : ∀ t s, (handleTable t s).1 = 0) (s : σ) :
    ¬(categoriseTablesXsdt handleTable m table s).WithinLength m table 8 := by
  intro hwithin
  have hpos : 0 < ps.length := List.length_pos_iff.2 hne
  have hlast : 40 + 8 * (ps.length - 1) ∈ (categoriseTablesXsdt handleTable m table s).reads := by
    unfold categoriseTablesXsdt
    simp only [h.entries (by decide), xsdt_pointers_offset]
    exact walkEntries_reads_all hok ps.length 0 _ (Nat.zero_le _) (by omega)
  have hbound := hwithin _ hlast
  rw [h.length, sizeofHeader_eq] at hbound
  omega

end

/-! ## The two walks -/

/-- Both walks call `handle_table` on the same tables in the same order, with the same outcome, and read
no pointer beyond their tables. -/
structure SameWalk {σ : Type} (mx mr : Mem) (xsdt rsdt : Nat) (x r : Walk σ) : Prop where
  calls : x.calls = r.calls
  ret : x.ret = r.ret
  state : x.state = r.state
  xsdt : x.WithinLength mx xsdt 8
  rsdt : r.WithinLength mr rsdt 4

/-- The walks agree, whatever `handle_table` makes of the tables, exactly on root tables without pointers. The walk over
the RSDT is right on every one. -/
theorem root_walks_agree_iff {mx mr : Mem} {xsdt rsdt : Nat} {ps : List Nat} (hx : RootTable mx xsdt 8 ps)
    (hr : RootTable mr rsdt 4 ps) :
    ((∀ (σ : Type) (handleTable : Nat → σ → Int × σ) (s : σ), SameWalk mx mr xsdt rsdt
      (categoriseTablesXsdt handleTable mx xsdt s) (categoriseTablesRsdt handleTable mr rsdt s)) ↔ ps = []) ∧
    ∀ (σ : Type) (handleTable : Nat → σ → Int × σ) (s : σ),
      (categoriseTablesRsdt handleTable mr rsdt s).Visits handleTable s mr rsdt 4 ps := by
  refine ⟨?_, fun σ handleTable s => hr.rsdt_walk handleTable s⟩
  constructor
  · intro h
    by_contra hne
    exact hx.xsdt_overrun hne (fun _ _ => rfl) () (h Unit (fun _ s => (0, s)) ()).xsdt
  · rintro rfl σ handleTable s
    have hxn := hx.entries (by decide)
    have hrn := hr.entries (by decide)
    have hxw : categoriseTablesXsdt handleTable mx xsdt s = ⟨0, s, [], []⟩ := by
      unfold categoriseTablesXsdt
      simp only [hxn, List.length_nil, walkEntries]
    have hrw : categoriseTablesRsdt handleTable mr rsdt s = ⟨0, s, [], []⟩ := by
      unfold categoriseTablesRsdt
      simp only [hrn, List.length_nil, walkEntries]
    rw [hxw, hrw]
    refine ⟨rfl, rfl, rfl, ?_, ?_⟩
    · intro a ha; cases ha
    · intro a ha; cases ha

/-- A memory holding, at 0, a root table of the pointers `ps` of `width` bytes each. -/
def rootTable (width : Nat) (ps : List Nat) : Mem :=
  ps.zipIdx.foldl (fun m (p, i) => m.store (36 + width * i) width (BitVec.ofNat _ p))
    (Mem.store (fun _ => 0) 4 4 (BitVec.ofNat _ (36 + width * ps.length)))

/-- Two tables without pointers. -/
theorem empty_root_walks_agree : RootTable (rootTable 8 []) 0 8 [] ∧ RootTable (rootTable 4 []) 0 4 [] ∧
    ∀ (σ : Type) (handleTable : Nat → σ → Int × σ) (s : σ), SameWalk (rootTable 8 []) (rootTable 4 []) 0 0
      (categoriseTablesXsdt handleTable (rootTable 8 []) 0 s)
      (categoriseTablesRsdt handleTable (rootTable 4 []) 0 s) := by
  have hx : RootTable (rootTable 8 []) 0 8 [] := ⟨by decide, fun _ hi => absurd hi (Nat.not_lt_zero _)⟩
  have hr : RootTable (rootTable 4 []) 0 4 [] := ⟨by decide, fun _ hi => absurd hi (Nat.not_lt_zero _)⟩
  exact ⟨hx, hr, (root_walks_agree_iff hx hr).1.2 rfl⟩

/-- One table at `0x1000`: the walk over the XSDT handles whatever lies at physical address 0 in its place. -/
theorem one_table_walks_differ :
    RootTable (rootTable 8 [0x1000]) 0 8 [0x1000] ∧ RootTable (rootTable 4 [0x1000]) 0 4 [0x1000] ∧
    (categoriseTablesXsdt (fun _ s => (0, s)) (rootTable 8 [0x1000]) 0 ()).calls = [mmioPhysToVirt 0] ∧
    (categoriseTablesRsdt (fun _ s => (0, s)) (rootTable 4 [0x1000]) 0 ()).calls = [mmioPhysToVirt 0x1000] ∧
    ¬SameWalk (rootTable 8 [0x1000]) (rootTable 4 [0x1000]) 0 0
      (categoriseTablesXsdt (fun _ s => (0, s)) (rootTable 8 [0x1000]) 0 ())
      (categoriseTablesRsdt (fun _ s => (0, s)) (rootTable 4 [0x1000]) 0 ()) := by
  have hx : RootTable (rootTable 8 [0x1000]) 0 8 [0x1000] := ⟨by decide, by decide⟩
  have hr : RootTable (rootTable 4 [0x1000]) 0 4 [0x1000] := ⟨by decide, by decide⟩
  refine ⟨hx, hr, by decide +kernel, by decide +kernel, ?_⟩
  intro hsame
  exact hx.xsdt_overrun (List.cons_ne_nil _ _) (fun _ _ => rfl) () hsame.xsdt

end Icarus.Acpi
