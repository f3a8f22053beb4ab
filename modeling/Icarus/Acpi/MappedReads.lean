/-
The way from the root pointer to the tables (ACPI.c): `handle_new_acpi` and `handle_old_acpi` have one page mapped for
the root table, and the walk reads whatever the root table names.
-/
import Icarus.Acpi.TableReads
import Icarus.Processes.Construction

namespace Icarus.Acpi

open Icarus.Base Icarus.Memory Icarus.Processes

/-! ## The root pointer -/

/-- `SIGNATURE`. -/
def rsdSignature : List Char := ['R', 'S', 'D', ' ', 'P', 'T', 'R', ' ']

/-- `xsdp->XsdtAddress`, if the checks of `handle_new_acpi` let it pass. -/
def xsdtAddress (data : Mem) (xsdp : Nat) : Option Nat :=
  if istrncmp data xsdp rsdSignature ≠ 0 then none
  else if calculateChecksum data xsdp 20 ≠ 0 then none
  else if calculateChecksum data xsdp (data.load (xsdp + offsetOf xsdpMembers 5) 4).toNat ≠ 0 then none
  else some (data.load64 (xsdp + offsetOf xsdpMembers 6)).toNat

/-- `rsdp->RsdtAddress`, if the checks of `handle_old_acpi` let it pass. -/
def rsdtAddress (data : Mem) (rsdp : Nat) : Option Nat :=
  if istrncmp data rsdp rsdSignature ≠ 0 then none
  else if calculateChecksum data rsdp 20 ≠ 0 then none
  else some (data.load (rsdp + offsetOf rsdpMembers 4) 4).toNat

/-! ## Runs -/

/-- A call of `handle_table` from a walk; nothing follows a fault. -/
def callTable (o : AcpiObjects) (tables : Mem) (h : Nat) : Except Fault AcpiState → Int × Except Fault AcpiState
  | .ok s =>
    match handleTable o tables h s with
    | .ok r => (r.ret, .ok r.state)
    | .error e => (-1, .error e)
  | .error e => (-1, .error e)

/-- The offset of each pointer a walk read, with the table it called `handle_table` on. -/
def Walk.visits {σ : Type} (w : Walk σ) : List (Nat × Nat) := w.reads.zip w.calls

/-- What a walk over the root table at `root` does in the window: it reads a pointer and calls `handle_table`, over and
over. -/
def visitEvents (o : AcpiObjects) (tables : Mem) (root width : Nat) :
    List (Nat × Nat) → AcpiState → List (Access Nat Nat)
  | [], _ => []
  | (offset, h) :: visits, s =>
    (List.range' (root + offset) width).map .use ++ ((tableReads o tables h s).map .use ++
      ((tableMaps o tables h s).map .grant ++
        match handleTable o tables h s with
        | .ok r => visitEvents o tables root width visits r.state
        | .error _ => []))

/-- What a handler returns, the state it leaves, and in their order the bytes read in the window and the pages mapped
there. -/
structure AcpiRun where
  ret : Int
  state : Except Fault AcpiState
  events : List (Access Nat Nat)

/-- The end of both handlers, which differ in the walk and in the width of its pointers: the page of the root table is
mapped and its tables categorised. -/
def handleRoot (o : AcpiObjects) (tables : Mem)
    (categorise : (Nat → Except Fault AcpiState → Int × Except Fault AcpiState) → Mem → Nat → Except Fault AcpiState →
      Walk (Except Fault AcpiState)) (width : Nat) (s : AcpiState) : Option Nat → AcpiRun
  | none => ⟨-1, .ok s, []⟩
  | some rootPhys =>
    let s' := { s with kernel := (mapPage rootPhys s.kernel).2 }
    if (mapPage rootPhys s.kernel).1 = frameAllocFailed then ⟨-1, .ok s', []⟩
    else
      let root := mmioPhysToVirt rootPhys
      let walk := categorise (callTable o tables) tables root (.ok s')
      ⟨if walk.ret ≠ 0 then -1 else 0, walk.state, (mmioPages rootPhys defaultPageSize).map .grant ++
        ((lengthReads root).map .use ++ visitEvents o tables root width walk.visits s')⟩

/-- `handle_new_acpi`. -/
def handleNewAcpi (o : AcpiObjects) (tables : Mem) (xsdp : Nat) (s : AcpiState) : AcpiRun :=
  handleRoot o tables categoriseTablesXsdt 8 s (xsdtAddress s.data xsdp)

/-- `handle_old_acpi` up to `discoverPCIE`, which looks at no table. -/
def handleOldAcpi (o : AcpiObjects) (tables : Mem) (rsdp : Nat) (s : AcpiState) : AcpiRun :=
  handleRoot o tables categoriseTablesRsdt 4 s (rsdtAddress s.data rsdp)

/-! ## Where the tables may lie -/

/-- The bytes from `a` up to `e` lie in the pages `S`. -/
def LieIn (S : Set Nat) (a e : Nat) : Prop := ∀ x, a ≤ x → x < e → windowPage x ∈ S

/-- A property of every visit of a walk, with the state before it and the pages that MADTs had mapped by then, from `S`
on. -/
def EveryVisit (o : AcpiObjects) (tables : Mem) (P : Set Nat → Nat × Nat → AcpiState → Prop) :
    List (Nat × Nat) → Set Nat → AcpiState → Prop
  | [], _, _ => True
  | v :: visits, S, s => P S v s ∧ ∀ r, handleTable o tables v.2 s = .ok r →
      EveryVisit o tables P visits (S ∪ {page | page ∈ tableMaps o tables v.2 s}) r.state

/-- The pointer and the table, as far as it is looked at. -/
structure VisitMeets (o : AcpiObjects) (tables : Mem) (root width : Nat) (S : Set Nat) (v : Nat × Nat) (s : AcpiState) :
    Prop where
  pointer : LieIn S (root + v.1) (root + v.1 + width)
  table : LieIn S v.2 (tableEnd o tables v.2 s)

/-- The root table's length, and all that is looked at in a walk, lie in the page that the root table starts in or in
one of the interrupt controllers that a MADT visited before had mapped. -/
structure RootMeets (o : AcpiObjects) (tables : Mem) (root width : Nat) (visits : List (Nat × Nat)) (s : AcpiState) :
    Prop where
  length : LieIn {windowPage root} (root + 4) (root + 8)
  visits : EveryVisit o tables (VisitMeets o tables root width) visits {windowPage root} s

/-- A handler whose checks admit the root table at `address`, if it can map its page, meets this. -/
def HandlerMeets (o : AcpiObjects) (tables : Mem)
    (categorise : (Nat → Except Fault AcpiState → Int × Except Fault AcpiState) → Mem → Nat → Except Fault AcpiState →
      Walk (Except Fault AcpiState)) (width : Nat) (s : AcpiState) (address : Option Nat) : Prop :=
  ∀ rootPhys, address = some rootPhys → (mapPage rootPhys s.kernel).1 ≠ frameAllocFailed →
    RootMeets o tables (mmioPhysToVirt rootPhys) width
      (categorise (callTable o tables) tables (mmioPhysToVirt rootPhys)
        (.ok { s with kernel := (mapPage rootPhys s.kernel).2 })).visits
      { s with kernel := (mapPage rootPhys s.kernel).2 }

/-- The entries a walk finds room for in the root table. -/
def rootEntries (tables : Mem) (root width : Nat) : Nat :=
  (toInt32 (sub64 (tableLength tables root) sizeofHeader / width)).toNat

/-- The table that the pointer at `at'` in the root table names. -/
def namedTable (tables : Mem) (root width at' : Nat) : Nat :=
  mmioPhysToVirt (tables.load (root + at') width).toNat

/-- Firmware that packs its tables: the length of the root table, its pointers, and every table they name with room
behind it for one more entry, all lie in the page the root table starts in. -/
structure OnePage (tables : Mem) (root offset width : Nat) : Prop where
  length : LieIn {windowPage root} (root + 4) (root + 8)
  pointer : ∀ j < rootEntries tables root width,
    LieIn {windowPage root} (root + (offset + width * j)) (root + (offset + width * j) + width)
  table : ∀ j < rootEntries tables root width,
    let h := namedTable tables root width (offset + width * j)
    LieIn {windowPage root} h (h + max 0x2C (tableLength tables h + 14))

section
variable {o : AcpiObjects} {tables : Mem} {root width addr : Nat} {s : AcpiState} {S : Set Nat}

theorem LieIn.mono {S' : Set Nat} {a e e' : Nat} (h : LieIn S a e) (hS : S ⊆ S') (he : e' ≤ e) : LieIn S' a e' :=
  fun x h1 h2 => hS (h x h1 (by omega))

theorem windowPage_congr {x y : Nat} (h : y / 4096 = x / 4096) : windowPage y = windowPage x := by
  unfold windowPage
  rw [h]

theorem lieIn_iff {a e : Nat} {as : List Nat} (h : Spans 4096 a e as) : (∀ x ∈ as, windowPage x ∈ S) ↔ LieIn S a e :=
  h.forall_iff fun _ _ hpage hy => windowPage_congr hpage ▸ hy

/-- The page of the address itself is the one mapped. -/
theorem mmioPages_one (h : addr < 2 ^ 64) : mmioPages addr defaultPageSize = [windowPage (mmioPhysToVirt addr)] := by
  have halign : alignDown addr defaultPageSize = addr / 4096 * 4096 := alignDown_two_pow (k := 12) h (by decide)
  unfold mmioPages
  rw [show (defaultPageSize + 4095) / 4096 = 1 from rfl, List.range_one, List.map_singleton, halign, Nat.mul_zero,
    add64_of_lt (by omega)]
  refine congrArg (fun page => [page]) ?_
  unfold windowPage mmioPhysToVirt add64 u64 kernelMmio
  omega

/-- A walk reads nothing unmapped exactly when each of its visits meets the condition. -/
theorem visitEvents_granted : ∀ {visits : List (Nat × Nat)} {S : Set Nat} {s : AcpiState}, 0 < width →
    (GrantedFrom windowPage S (visitEvents o tables root width visits s) ↔
      EveryVisit o tables (VisitMeets o tables root width) visits S s)
  | [], _, _, _ => Iff.rfl
  | (offset, h) :: visits, S, s, hw => by
    have hpointer : Spans 4096 (root + offset) (root + offset + width) (List.range' (root + offset) width) :=
      .range (by decide) hw
    unfold visitEvents EveryVisit
    rw [grantedFrom_uses, grantedFrom_uses, grantedFrom_grants, lieIn_iff hpointer, lieIn_iff tableReads_spans,
      ← and_assoc]
    refine and_congr ⟨fun hmeets => ⟨hmeets.1, hmeets.2⟩, fun hmeets => ⟨hmeets.1, hmeets.2⟩⟩ ?_
    cases hcall : handleTable o tables h s with
    | error e => simp
    | ok r =>
      simp only [Except.ok.injEq, forall_eq']
      exact visitEvents_granted hw

theorem handleRoot_granted
    {categorise : (Nat → Except Fault AcpiState → Int × Except Fault AcpiState) → Mem → Nat → Except Fault AcpiState →
      Walk (Except Fault AcpiState)} {address : Option Nat} (hw : 0 < width)
    (haddress : ∀ {a}, address = some a → a < 2 ^ 64) :
    Granted windowPage (handleRoot o tables categorise width s address).events ↔
      HandlerMeets o tables categorise width s address := by
  unfold HandlerMeets handleRoot
  cases address with
  | none => simp [granted_iff]
  | some rootPhys =>
    dsimp only
    by_cases hmap : (mapPage rootPhys s.kernel).1 = frameAllocFailed
    · rw [if_pos hmap]
      simp [granted_iff, hmap]
    · rw [if_neg hmap]
      simp only [Option.some.injEq, forall_eq', hmap, not_false_eq_true, ne_eq, forall_const]
      rw [granted_iff, mmioPages_one (haddress rfl), grantedFrom_grants, grantedFrom_uses, lieIn_iff lengthReads_spans,
        visitEvents_granted hw, Set.empty_union, show {page | page ∈ [windowPage (mmioPhysToVirt rootPhys)]} =
          {windowPage (mmioPhysToVirt rootPhys)} from Set.ext fun _ => List.mem_singleton]
      exact ⟨fun hmeets => ⟨hmeets.1, hmeets.2⟩, fun hmeets => ⟨hmeets.1, hmeets.2⟩⟩

end

/-! ## Tables in one page -/

section
variable {σ : Type} {handler : Nat → σ → Int × σ} {o : AcpiObjects} {tables : Mem} {root offset width : Nat}
  {s : AcpiState} {S : Set Nat}

/-- The pointers a walk has read so far name the tables it called `handle_table` on. -/
def Walk.Paired (w : Walk σ) (tables : Mem) (root offset width n : Nat) : Prop :=
  w.reads.length = w.calls.length ∧
    ∀ v ∈ w.visits, ∃ j < n, v = (offset + width * j, namedTable tables root width (offset + width * j))

/-- One round reads the next pointer and visits the table it names. -/
theorem Walk.Paired.handle {w : Walk σ} {i : Nat} (h : w.Paired tables root offset width i) :
    (w.handle handler tables root (offset + width * i) width).2.Paired tables root offset width (i + 1) := by
  obtain ⟨hlen, hvisits⟩ := h
  refine ⟨?_, ?_⟩
  · unfold Walk.handle
    dsimp only
    rw [List.length_append, List.length_append, hlen, List.length_singleton, List.length_singleton]
  · intro v hv
    have hzip : (w.handle handler tables root (offset + width * i) width).2.visits =
        w.visits ++ [(offset + width * i, namedTable tables root width (offset + width * i))] :=
      List.zip_append hlen
    rw [hzip] at hv
    rcases List.mem_append.1 hv with hv | hv
    · obtain ⟨j, hj, rfl⟩ := hvisits v hv
      exact ⟨j, by omega, rfl⟩
    · exact ⟨i, by omega, List.mem_singleton.1 hv⟩

theorem walkEntries_paired : ∀ (rounds i : Nat) (w : Walk σ), w.Paired tables root offset width i →
    (walkEntries handler tables root offset width rounds i w).Paired tables root offset width (i + rounds)
  | 0, _, _, h => h
  | rounds + 1, i, w, h => by
    have hround : (w.handle handler tables root (offset + width * i) width).2.Paired tables root offset width (i + 1) :=
      h.handle
    unfold walkEntries
    dsimp only
    split_ifs
    · exact ⟨hround.1, fun v hv => (hround.2 v hv).imp fun j hj => ⟨by omega, hj.2⟩⟩
    · have hrest := walkEntries_paired rounds (i + 1) _ hround
      rwa [show i + 1 + rounds = i + (rounds + 1) by omega] at hrest

/-- A whole walk visits nothing but what its pointers name. -/
theorem walk_paired (rounds : Nat) (st : σ) :
    (walkEntries handler tables root offset width rounds 0 ⟨0, st, [], []⟩).Paired tables root offset width rounds := by
  have hwalk : (walkEntries handler tables root offset width rounds 0 ⟨0, st, [], []⟩).Paired tables root offset width
      (0 + rounds) :=
    walkEntries_paired rounds 0 _ ⟨rfl, fun _ hv => absurd hv List.not_mem_nil⟩
  rwa [Nat.zero_add] at hwalk

/-- A visit lies in the page, whatever the tables before it have left. -/
theorem OnePage.visit (h : OnePage tables root offset width) {v : Nat × Nat}
    (hv : ∃ j < rootEntries tables root width, v = (offset + width * j,
      namedTable tables root width (offset + width * j)))
    (hS : {windowPage root} ⊆ S) : VisitMeets o tables root width S v s := by
  obtain ⟨j, hj, rfl⟩ := hv
  exact ⟨(h.pointer j hj).mono hS le_rfl, (h.table j hj).mono hS tableEnd_le⟩

theorem OnePage.everyVisit (h : OnePage tables root offset width) : ∀ {visits : List (Nat × Nat)} {S : Set Nat}
    {s : AcpiState}, (∀ v ∈ visits, ∃ j < rootEntries tables root width, v = (offset + width * j,
      namedTable tables root width (offset + width * j))) → {windowPage root} ⊆ S →
    EveryVisit o tables (VisitMeets o tables root width) visits S s
  | [], _, _, _, _ => trivial
  | _ :: _, _, _, hvisits, hS =>
    ⟨h.visit (hvisits _ List.mem_cons_self) hS, fun _ _ =>
      h.everyVisit (fun v hv => hvisits v (List.mem_cons_of_mem _ hv)) (hS.trans Set.subset_union_left)⟩

/-- Tables packed into the page of the root table are mapped before they are read. -/
theorem OnePage.rootMeets (h : OnePage tables root offset width) {w : Walk σ}
    (hw : w.Paired tables root offset width (rootEntries tables root width)) :
    RootMeets o tables root width w.visits s :=
  ⟨h.length, h.everyVisit hw.2 subset_rfl⟩

end

theorem xsdtAddress_lt {data : Mem} {xsdp a : Nat} (ha : xsdtAddress data xsdp = some a) : a < 2 ^ 64 := by
  unfold xsdtAddress at ha
  split_ifs at ha
  obtain rfl := Option.some.inj ha
  exact (data.load64 _).isLt

theorem rsdtAddress_lt {data : Mem} {rsdp a : Nat} (ha : rsdtAddress data rsdp = some a) : a < 2 ^ 64 := by
  unfold rsdtAddress at ha
  split_ifs at ha
  have hlt := (data.load (rsdp + offsetOf rsdpMembers 4) 4).isLt
  obtain rfl := Option.some.inj ha
  omega

/-- Both handlers read mapped pages only exactly when the tables lie in the page of the root table, as far as they are
looked at, or where a MADT before them had the registers of an interrupt controller mapped. What is looked at of a table
decides what `handle_table` makes of it, and tables packed into the page of the root table are mapped, whatever the
state. -/
theorem tables_mapped_iff (o : AcpiObjects) (tables : Mem) (xsdp rsdp : Nat) (s : AcpiState) :
    ((Granted windowPage (handleNewAcpi o tables xsdp s).events ↔
        HandlerMeets o tables categoriseTablesXsdt 8 s (xsdtAddress s.data xsdp)) ∧
      (Granted windowPage (handleOldAcpi o tables rsdp s).events ↔
        HandlerMeets o tables categoriseTablesRsdt 4 s (rsdtAddress s.data rsdp))) ∧
    (∀ (h : Nat) (s : AcpiState) (tables' : Mem), AgreeOn (tableReads o tables h s) tables tables' →
      handleTable o tables h s = handleTable o tables' h s) ∧
    ((∀ a, xsdtAddress s.data xsdp = some a → OnePage tables (mmioPhysToVirt a) (offsetOf xsdtMembers 1) 8) →
      Granted windowPage (handleNewAcpi o tables xsdp s).events) ∧
    ((∀ a, rsdtAddress s.data rsdp = some a → OnePage tables (mmioPhysToVirt a) (offsetOf rsdtMembers 1) 4) →
      Granted windowPage (handleOldAcpi o tables rsdp s).events) := by
  have hnew : Granted windowPage (handleNewAcpi o tables xsdp s).events ↔ _ :=
    handleRoot_granted (by decide) xsdtAddress_lt
  have hold : Granted windowPage (handleOldAcpi o tables rsdp s).events ↔ _ :=
    handleRoot_granted (by decide) rsdtAddress_lt
  refine ⟨⟨hnew, hold⟩, fun h s tables' hag => handleTable_congr hag, fun hpage => ?_, fun hpage => ?_⟩
  · exact hnew.2 fun a ha _ => (hpage a ha).rootMeets (walk_paired _ _)
  · exact hold.2 fun a ha _ => (hpage a ha).rootMeets (walk_paired _ _)

/-! ## A table in a page of its own -/

/-- An RSDT at `0x1000` in the window that names one table, an FACP table at `0x2000`. -/
def strayTable : Mem :=
  let m : Mem := fun _ => 0
  let m := (m.store (mmioPhysToVirt 0x1000 + 4) 4 40).store (mmioPhysToVirt 0x1000 + 36) 4 0x2000
  (m.store (mmioPhysToVirt 0x2000) 4 0x50434146).store (mmioPhysToVirt 0x2000 + 4) 4 36

/-- The root pointer at `0x400` of the data, with the RSDT's address and a checksum that is right. -/
def strayState : AcpiState where
  data :=
    let m : Mem := fun _ => 0
    ((m.store 0x400 8 0x2052545020445352).store 0x408 1 0xD1).store 0x410 4 0x1000
  apicInfo := 0
  kernel := newKernel

/-- The same two tables in one page: the FACP table is at `0x1100`. -/
def packedTable : Mem :=
  let m : Mem := fun _ => 0
  let m := (m.store (mmioPhysToVirt 0x1000 + 4) 4 40).store (mmioPhysToVirt 0x1000 + 36) 4 0x1100
  (m.store (mmioPhysToVirt 0x1100) 4 0x50434146).store (mmioPhysToVirt 0x1100 + 4) 4 36

/-- Every byte looked at lies in the page that was mapped. -/
theorem tables_mapped_packedTable :
    rsdtAddress strayState.data 0x400 = some 0x1000 ∧
      OnePage packedTable (mmioPhysToVirt 0x1000) (offsetOf rsdtMembers 1) 4 ∧
      Granted windowPage (handleOldAcpi bootObjects packedTable 0x400 strayState).events := by
  have haddress : rsdtAddress strayState.data 0x400 = some 0x1000 := by decide +kernel
  have hentries : rootEntries packedTable (mmioPhysToVirt 0x1000) 4 = 1 := by decide +kernel
  have hnamed : namedTable packedTable (mmioPhysToVirt 0x1000) 4 36 = mmioPhysToVirt 0x1100 := by decide +kernel
  have hlength : tableLength packedTable (mmioPhysToVirt 0x1100) = 36 := by decide +kernel
  have hpage {a e : Nat} (ha : mmioPhysToVirt 0x1000 ≤ a) (he : e ≤ mmioPhysToVirt 0x1000 + 4096) :
      LieIn {windowPage (mmioPhysToVirt 0x1000)} a e := by
    intro x h1 h2
    refine windowPage_congr ?_
    have hroot : mmioPhysToVirt 0x1000 = 0xFFFFFE0000001000 := by decide
    omega
  have hone : OnePage packedTable (mmioPhysToVirt 0x1000) (offsetOf rsdtMembers 1) 4 := by
    have hzero {j : Nat} (hj : j < rootEntries packedTable (mmioPhysToVirt 0x1000) 4) : j = 0 := by omega
    refine ⟨hpage (by omega) (by omega), fun j hj => ?_, fun j hj => ?_⟩
    · rw [hzero hj]
      exact hpage (by decide) (by decide)
    · rw [hzero hj, rsdt_pointers_offset]
      show LieIn _ (namedTable packedTable (mmioPhysToVirt 0x1000) 4 36) _
      rw [hnamed, hlength]
      exact hpage (by decide) (by decide)
  refine ⟨haddress, hone, (tables_mapped_iff bootObjects packedTable 0 0x400 strayState).2.2.2 ?_⟩
  intro a ha
  rw [haddress] at ha
  cases ha
  exact hone

/-- The root table's page is mapped, but the table's is not when its signature is read. -/
theorem stray_table_unmapped :
    (handleOldAcpi bootObjects strayTable 0x400 strayState).ret = 0 ∧
      ¬Granted windowPage (handleOldAcpi bootObjects strayTable 0x400 strayState).events := by
  refine ⟨by decide +kernel, ?_⟩
  exact not_granted (a := mmioPhysToVirt 0x2000) (by decide +kernel) (by decide +kernel)

end Icarus.Acpi
