/-
The tables the root table names (ACPI.c): `handle_table` copies the FADT and the MCFG into objects of their
own and has the MADT decoded. The check that is to admit a table sums up the object it is copied to.
-/
import Icarus.Acpi.Madt

namespace Icarus.Acpi

open Icarus.Base Icarus.Memory Icarus.Processes

/-! ## Objects and state -/

/-- `GenericAddressStructure`. -/
def genericAddressStructure : Member := .struct [.u8, .u8, .u8, .u8, .u64]

/-- `struct FADT_TABLE`, runs of members of one type written as arrays. -/
def fadtTable : List Member :=
  [.struct acpiSdtHeader, .u32, .u32, .u8, .u8, .u16, .u32, .array 4 .u8, .array 8 .u32, .array 8 .u8,
    .array 4 .u16, .array 5 .u8, .u16, .u8, .u32, genericAddressStructure, .u8, .array 3 .u8, .u64, .u64,
    .array 8 genericAddressStructure]

/-- `sizeof(struct FADT_TABLE)`. -/
def sizeofFadt : Nat := sizeOfStruct fadtTable

/-- Where `FADT.FullLength` lies. -/
def fullLengthOffset : Nat := offsetOf fadtTable 3

/-- `MAX_MCFG_ENTRIES`. -/
def maxMcfgEntries : Nat := 16

/-- `struct ACPI_MCFG`. -/
def acpiMcfg : List Member :=
  packed [.struct acpiSdtHeader, .u64, .array maxMcfgEntries (.struct (packed [.u64, .u16, .u8, .u8, .u32]))]

/-- `sizeof(struct ACPI_MCFG)`. -/
def sizeofMcfg : Nat := sizeOfStruct acpiMcfg

@[simp] theorem sizeofFadt_eq : sizeofFadt = 288 := by decide +kernel

@[simp] theorem fullLengthOffset_eq : fullLengthOffset = 44 := by decide +kernel

@[simp] theorem sizeofMcfg_eq : sizeofMcfg = 300 := by decide

/-- Where the linker put `FADT` and `MCFG`. -/
structure AcpiObjects where
  fadt : Nat
  mcfg : Nat
  apart : fadt + sizeofFadt ≤ mcfg ∨ mcfg + sizeofMcfg ≤ fadt

/-- The data of the kernel, which `FADT` and `MCFG` lie in, `APIC_INFO`, and what `handle_MADT` works on. -/
structure AcpiState where
  data : Mem
  apicInfo : Nat
  kernel : Kernel

/-! ## `handle_table` -/

/-- `Istrncmp` with a literal, over all of its characters. -/
def istrncmp (m : Mem) : (a : Nat) → List Char → Int
  | _, [] => 0
  | a, c :: cs => if (m a).toNat ≠ c.toNat then (m a).toNat - c.toNat else istrncmp m (a + 1) cs

/-- `calculate_checksum`. -/
def calculateChecksum (m : Mem) (buffer : Nat) : (length : Nat) → BitVec 8
  | 0 => 0
  | length + 1 => calculateChecksum m buffer length + m (buffer + length)

/-- The tables `handle_table` knows. -/
inductive AcpiTable
  | facp | mcfg | apic
  deriving DecidableEq, Repr

/-- The branch `handle_table` takes for the table at `h`. -/
def tableKind (tables : Mem) (h : Nat) : Option AcpiTable :=
  if istrncmp tables h ['F', 'A', 'C', 'P'] = 0 then some .facp
  else if istrncmp tables h ['M', 'C', 'F', 'G'] = 0 then some .mcfg
  else if istrncmp tables h ['A', 'P', 'I', 'C'] = 0 then some .apic
  else none

/-- The buffer `CHECKSUM` is given in each branch. -/
def AcpiObjects.checked (o : AcpiObjects) : AcpiTable → Nat
  | .facp => o.fadt
  | .mcfg => o.mcfg
  | .apic => o.mcfg

/-- What a call returns, the state it leaves, and the ranges of the kernel's data it wrote, each by its start
and its length. -/
structure Handled where
  ret : Int
  state : AcpiState
  writes : List (Nat × Nat)

/-- The FADT as far as the object holds it, and the mark whether it came whole. -/
def recordFadt (o : AcpiObjects) (tables : Mem) (h : Nat) (data : Mem) : Mem :=
  let data := data.copy o.fadt tables h (min (tableLength tables h) sizeofFadt)
  data.store (o.fadt + fullLengthOffset) 1 (if tableLength tables h < sizeofFadt then 0 else 1)

/-- The MCFG in all its length. -/
def recordMcfg (o : AcpiObjects) (tables : Mem) (h : Nat) (data : Mem) : Mem :=
  data.copy o.mcfg tables h (tableLength tables h)

/-- The rest of a branch behind its `CHECKSUM`. -/
def acceptTable (o : AcpiObjects) (tables : Mem) (h : Nat) (s : AcpiState) : AcpiTable → Except Fault Handled
  | .facp => .ok ⟨0, { s with data := recordFadt o tables h s.data },
      [(o.fadt, min (tableLength tables h) sizeofFadt), (o.fadt + fullLengthOffset, 1)]⟩
  | .mcfg => .ok ⟨0, { s with data := recordMcfg o tables h s.data }, [(o.mcfg, tableLength tables h)]⟩
  | .apic => do
    let (info, kernel) ← handleMadt tables h s.kernel
    return ⟨0, { s with apicInfo := info.getD s.apicInfo, kernel }, []⟩

/-- `handle_table`. -/
def handleTable (o : AcpiObjects) (tables : Mem) (h : Nat) (s : AcpiState) : Except Fault Handled :=
  match tableKind tables h with
  | none => .ok ⟨0, s, []⟩
  | some kind =>
    if calculateChecksum s.data (o.checked kind) (tableLength tables h) ≠ 0 then .ok ⟨-1, s, []⟩
    else acceptTable o tables h s kind

/-- One call after the other, whatever they return. -/
def handleTables (o : AcpiObjects) (tables : Mem) : List Nat → AcpiState → Except Fault AcpiState
  | [], s => .ok s
  | h :: hs, s => do
    let r ← handleTable o tables h s
    handleTables o tables hs r.state

/-! ## What is asked of a step -/

/-- The table's own bytes sum to 0. -/
def Valid (tables : Mem) (h : Nat) : Prop := calculateChecksum tables h (tableLength tables h) = 0

instance (tables : Mem) (h : Nat) : Decidable (Valid tables h) := inferInstanceAs (Decidable (_ = _))

/-- The call turns the table down. -/
def Rejects (o : AcpiObjects) (tables : Mem) (h : Nat) (s : AcpiState) : Prop :=
  ∃ r, handleTable o tables h s = .ok r ∧ r.ret ≠ 0

/-- A range inside one of the two objects. -/
def AcpiObjects.Inside (o : AcpiObjects) (w : Nat × Nat) : Prop :=
  (o.fadt ≤ w.1 ∧ w.1 + w.2 ≤ o.fadt + sizeofFadt) ∨ (o.mcfg ≤ w.1 ∧ w.1 + w.2 ≤ o.mcfg + sizeofMcfg)

/-- The table is accepted for its own sake, and the objects alone are written. -/
def StepTrue (o : AcpiObjects) (tables : Mem) (h : Nat) (s : AcpiState) : Prop :=
  (∀ kind, tableKind tables h = some kind → (¬Rejects o tables h s ↔ Valid tables h)) ∧
    ∀ r, handleTable o tables h s = .ok r → ∀ w ∈ r.writes, o.Inside w

/-- What the checked object happens to hold sums to 0 over the length of the table just when the table does,
and an MCFG table fits its object. -/
def StepMeets (o : AcpiObjects) (tables : Mem) (h : Nat) (s : AcpiState) : Prop :=
  ∀ kind, tableKind tables h = some kind →
    (calculateChecksum s.data (o.checked kind) (tableLength tables h) = 0 ↔ Valid tables h) ∧
      (kind = .mcfg → Valid tables h → tableLength tables h ≤ sizeofMcfg)

/-- A property of every call of a run. -/
def EveryStep (P : Nat → AcpiState → Prop) (o : AcpiObjects) (tables : Mem) : List Nat → AcpiState → Prop
  | [], _ => True
  | h :: hs, s => P h s ∧ ∀ r, handleTable o tables h s = .ok r → EveryStep P o tables hs r.state

/-! ## Signatures -/

section
variable {tables : Mem} {h h' : Nat}

/-- The bytes of a literal stand at `a`. -/
def Spells (m : Mem) (a : Nat) (cs : List Char) : Prop := ∀ i (hi : i < cs.length), (m (a + i)).toNat = cs[i].toNat

theorem istrncmp_eq_zero {m : Mem} : ∀ {cs : List Char} {a : Nat}, istrncmp m a cs = 0 ↔ Spells m a cs
  | [], a => by simp [istrncmp, Spells]
  | c :: cs, a => by
    unfold istrncmp
    constructor
    · intro hz
      by_cases hc : (m a).toNat = c.toNat
      · rw [if_neg (not_not.2 hc)] at hz
        have hrest := istrncmp_eq_zero.1 hz
        intro i hi
        cases i with
        | zero => exact hc
        | succ i =>
          have hnext := hrest i (by simpa using hi)
          rw [show a + (i + 1) = a + 1 + i by omega]
          exact hnext
      · rw [if_pos hc] at hz
        omega
    · intro hs
      have hc : (m a).toNat = c.toNat := hs 0 (Nat.zero_lt_succ _)
      rw [if_neg (not_not.2 hc)]
      refine istrncmp_eq_zero.2 ?_
      intro i hi
      have hnext := hs (i + 1) (Nat.succ_lt_succ hi)
      rw [show a + 1 + i = a + (i + 1) by omega]
      exact hnext

/-- `h->Signature`. -/
def signature (tables : Mem) (h : Nat) : List (BitVec 8) := (List.range 4).map fun i => tables (h + i)

/-- The signature each branch compares with. -/
def AcpiTable.name : AcpiTable → List Char
  | .facp => ['F', 'A', 'C', 'P']
  | .mcfg => ['M', 'C', 'F', 'G']
  | .apic => ['A', 'P', 'I', 'C']

theorem tableKind_spells {kind : AcpiTable} (hk : tableKind tables h = some kind) : Spells tables h kind.name := by
  unfold tableKind at hk
  split_ifs at hk with h1 h2 h3
  · cases hk; exact istrncmp_eq_zero.1 h1
  · cases hk; exact istrncmp_eq_zero.1 h2
  · cases hk; exact istrncmp_eq_zero.1 h3

/-- Two tables of one kind have one signature. -/
theorem signature_eq {kind : AcpiTable} (hk : tableKind tables h = some kind) (hk' : tableKind tables h' = some kind) :
    signature tables h = signature tables h' := by
  have hs := tableKind_spells hk
  have hs' := tableKind_spells hk'
  have hlen : kind.name.length = 4 := by cases kind <;> rfl
  unfold signature
  apply List.map_congr_left
  intro i hi
  have hi' : i < kind.name.length := hlen ▸ List.mem_range.1 hi
  exact BitVec.eq_of_toNat_eq ((hs i hi').trans (hs' i hi').symm)

end

/-! ## One step -/

section
variable {o : AcpiObjects} {tables : Mem} {h : Nat} {s : AcpiState}

theorem acceptTable_ret {kind : AcpiTable} {r : Handled} (hr : acceptTable o tables h s kind = .ok r) : r.ret = 0 := by
  cases kind with
  | facp => cases hr; rfl
  | mcfg => cases hr; rfl
  | apic =>
    obtain ⟨⟨info, kernel⟩, -, hr⟩ := bind_eq_ok.1 hr
    cases hr
    rfl

/-- The verdict is that of the check. -/
theorem rejects_iff {kind : AcpiTable} (hk : tableKind tables h = some kind) :
    Rejects o tables h s ↔ calculateChecksum s.data (o.checked kind) (tableLength tables h) ≠ 0 := by
  unfold Rejects handleTable
  simp only [hk]
  by_cases hsum : calculateChecksum s.data (o.checked kind) (tableLength tables h) = 0
  · rw [if_neg (not_not.2 hsum)]
    constructor
    · rintro ⟨r, hr, hne⟩
      exact absurd (acceptTable_ret hr) hne
    · exact fun hne => absurd hsum hne
  · rw [if_pos hsum]
    exact ⟨fun _ => hsum, fun _ => ⟨_, rfl, show (-1 : Int) ≠ 0 by decide⟩⟩

/-- What a branch writes lies in the objects, an MCFG table that is too long apart. -/
theorem acceptTable_inside {kind : AcpiTable} {r : Handled} (hr : acceptTable o tables h s kind = .ok r) :
    (∀ w ∈ r.writes, o.Inside w) ↔ (kind = .mcfg → tableLength tables h ≤ sizeofMcfg) := by
  have hapart := o.apart
  rw [sizeofFadt_eq, sizeofMcfg_eq] at hapart
  cases kind with
  | facp =>
    cases hr
    refine ⟨fun _ he => (by cases he), fun _ w hw => ?_⟩
    have hmin := Nat.min_le_right (tableLength tables h) sizeofFadt
    left
    rcases List.mem_cons.1 hw with rfl | hw
    · exact ⟨le_refl _, by dsimp only; omega⟩
    · obtain rfl := List.mem_singleton.1 hw
      rw [fullLengthOffset_eq, sizeofFadt_eq]
      exact ⟨Nat.le_add_right _ _, by dsimp only; omega⟩
  | mcfg =>
    cases hr
    constructor
    · intro hw _
      have hin := hw _ (List.mem_singleton_self _)
      unfold AcpiObjects.Inside at hin
      rw [sizeofFadt_eq, sizeofMcfg_eq] at hin
      rw [sizeofMcfg_eq]
      dsimp only at hin
      omega
    · intro hle w hw
      obtain rfl := List.mem_singleton.1 hw
      right
      exact ⟨le_refl _, Nat.add_le_add_left (hle rfl) _⟩
  | apic =>
    obtain ⟨⟨info, kernel⟩, -, hr⟩ := bind_eq_ok.1 hr
    cases hr
    exact ⟨fun _ he => (by cases he), fun _ w hw => (by cases hw)⟩

/-- A step is right exactly under the condition. -/
theorem stepTrue_iff : StepTrue o tables h s ↔ StepMeets o tables h s := by
  cases hk : tableKind tables h with
  | none =>
    constructor
    · intro _ kind hk'
      rw [hk] at hk'
      cases hk'
    · intro _
      refine ⟨fun kind hk' => ?_, fun r hr w hw => ?_⟩
      · rw [hk] at hk'
        cases hk'
      · unfold handleTable at hr
        rw [hk] at hr
        cases hr
        cases hw
  | some kind =>
    have hverdict := rejects_iff (o := o) (s := s) hk
    have hrun : handleTable o tables h s =
        if calculateChecksum s.data (o.checked kind) (tableLength tables h) ≠ 0 then .ok ⟨-1, s, []⟩
        else acceptTable o tables h s kind := by
      unfold handleTable
      rw [hk]
    unfold StepTrue StepMeets
    rw [hk]
    constructor
    · rintro ⟨haccept, hwrites⟩ kind' he
      cases he
      have hsum := haccept kind rfl
      rw [hverdict, not_not] at hsum
      refine ⟨hsum, ?_⟩
      rintro rfl hvalid
      rw [if_neg (not_not.2 (hsum.2 hvalid))] at hrun
      exact (acceptTable_inside rfl).1 (hwrites _ hrun) rfl
    · intro hmeets
      obtain ⟨hsum, hfits⟩ := hmeets kind rfl
      refine ⟨fun kind' he => ?_, fun r hr => ?_⟩
      · cases he
        rw [hverdict, not_not]
        exact hsum
      · rw [hrun] at hr
        by_cases hz : calculateChecksum s.data (o.checked kind) (tableLength tables h) = 0
        · rw [if_neg (not_not.2 hz)] at hr
          exact (acceptTable_inside hr).2 fun he => hfits he (hsum.1 hz)
        · rw [if_pos hz] at hr
          cases hr
          exact fun w hw => (by cases hw)

end

/-! ## Tables judged by themselves -/

/-- The step that looks at the table's own checksum. -/
def judgeTable (o : AcpiObjects) (tables : Mem) (h : Nat) (s : AcpiState) : Except Fault AcpiState :=
  match tableKind tables h with
  | none => .ok s
  | some kind => if Valid tables h then (acceptTable o tables h s kind).map (·.state) else .ok s

/-- An accepted MCFG table fits its object. -/
def Fits (tables : Mem) (h : Nat) : Prop :=
  tableKind tables h = some .mcfg → Valid tables h → tableLength tables h ≤ sizeofMcfg

/-- Copies to places apart. -/
theorem copy_copy_comm {dst src src' : Mem} {d d' p p' n n' : Nat} (h : d + n ≤ d' ∨ d' + n' ≤ d) :
    (dst.copy d src p n).copy d' src' p' n' = (dst.copy d' src' p' n').copy d src p n := by
  funext x
  unfold Mem.copy
  by_cases h1 : d ≤ x ∧ x < d + n
  · have h2 : ¬(d' ≤ x ∧ x < d' + n') := by omega
    rw [if_neg h2, if_pos h1, if_pos h1]
  · rw [if_neg h1, if_neg h1]

theorem copy_store_comm {dst src : Mem} {d p n a k : Nat} {v : BitVec (8 * k)} (h : d + n ≤ a ∨ a + k ≤ d) :
    (dst.store a k v).copy d src p n = (dst.copy d src p n).store a k v := by
  funext x
  unfold Mem.copy Mem.store
  by_cases h1 : d ≤ x ∧ x < d + n
  · have h2 : ¬(a ≤ x ∧ x < a + k) := by omega
    simp only [if_neg h2, if_pos h1]
  · simp only [if_neg h1]

section
variable {o : AcpiObjects} {tables : Mem} {h x y : Nat} {s : AcpiState}

theorem judgeTable_pass (hpass : ∀ kind, tableKind tables h = some kind → ¬Valid tables h) :
    judgeTable o tables h s = .ok s := by
  unfold judgeTable
  cases hk : tableKind tables h with
  | none => rfl
  | some kind => exact if_neg (hpass kind hk)

theorem judgeTable_accept {kind : AcpiTable} (hk : tableKind tables h = some kind) (hv : Valid tables h) :
    judgeTable o tables h s = (acceptTable o tables h s kind).map (·.state) := by
  unfold judgeTable
  rw [hk]
  exact if_pos hv

/-- Under the condition the code judges a table by itself. -/
theorem handleTable_eq_judge (hmeets : StepMeets o tables h s) :
    (handleTable o tables h s).map (·.state) = judgeTable o tables h s := by
  unfold handleTable judgeTable
  cases hk : tableKind tables h with
  | none => rfl
  | some kind =>
    have hsum := (hmeets kind hk).1
    dsimp only
    by_cases hv : Valid tables h
    · rw [if_pos hv, if_neg (not_not.2 (hsum.2 hv))]
    · rw [if_neg hv, if_pos (fun hz => hv (hsum.1 hz))]
      rfl

/-- The FADT and the MCFG are recorded in either order. -/
theorem accept_facp_mcfg (hfits : tableLength tables y ≤ sizeofMcfg) :
    ((acceptTable o tables x s .facp).map (·.state) >>= fun s => (acceptTable o tables y s .mcfg).map (·.state)) =
      ((acceptTable o tables y s .mcfg).map (·.state) >>= fun s => (acceptTable o tables x s .facp).map (·.state)) := by
  have hapart := o.apart
  have hmin := Nat.min_le_right (tableLength tables x) sizeofFadt
  rw [sizeofFadt_eq, sizeofMcfg_eq] at hapart
  rw [sizeofFadt_eq] at hmin
  rw [sizeofMcfg_eq] at hfits
  simp only [acceptTable, Except.map, bind, Except.bind, recordFadt, recordMcfg, sizeofFadt_eq, fullLengthOffset_eq]
  rw [copy_store_comm (by omega), copy_copy_comm (by omega)]

/-- The other two tables change the data and nothing else. -/
theorem accept_data {kind : AcpiTable} (hk : kind ≠ .apic) : ∃ f : Mem → Mem, ∀ s : AcpiState,
    (acceptTable o tables x s kind).map (·.state) = .ok { s with data := f s.data } := by
  cases kind with
  | facp => exact ⟨recordFadt o tables x, fun _ => rfl⟩
  | mcfg => exact ⟨recordMcfg o tables x, fun _ => rfl⟩
  | apic => exact absurd rfl hk

/-- `handle_MADT` does not look at the data the others are recorded in. -/
theorem accept_apic_data {kind : AcpiTable} (hk : kind ≠ .apic) :
    ((acceptTable o tables x s kind).map (·.state) >>= fun s => (acceptTable o tables y s .apic).map (·.state)) =
      ((acceptTable o tables y s .apic).map (·.state) >>= fun s => (acceptTable o tables x s kind).map (·.state)) := by
  obtain ⟨f, hf⟩ := @accept_data o tables x kind hk
  have hapic : ∀ s : AcpiState, (acceptTable o tables y s .apic).map (·.state) = (handleMadt tables y s.kernel).map
      fun r => { s with apicInfo := r.1.getD s.apicInfo, kernel := r.2 } := by
    intro s
    show (handleMadt tables y s.kernel >>= _).map _ = _
    cases handleMadt tables y s.kernel <;> rfl
  simp only [hf, hapic]
  show (handleMadt tables y s.kernel).map _ = _
  cases handleMadt tables y s.kernel <;> rfl

/-- Two tables of different kinds may be handled in either order. -/
theorem judge_comm (hne : ∀ kind, ¬(tableKind tables x = some kind ∧ tableKind tables y = some kind))
    (hx : Fits tables x) (hy : Fits tables y) (z : Except Fault AcpiState) :
    (z >>= judgeTable o tables x) >>= judgeTable o tables y = (z >>= judgeTable o tables y) >>= judgeTable o tables x := by
  cases z with
  | error e => rfl
  | ok s =>
    show (judgeTable o tables x s >>= judgeTable o tables y) = (judgeTable o tables y s >>= judgeTable o tables x)
    by_cases hpx : ∀ kind, tableKind tables x = some kind → ¬Valid tables x
    · have hx' : judgeTable o tables x = .ok := funext fun s => judgeTable_pass hpx
      rw [hx']
      show judgeTable o tables y s = (judgeTable o tables y s >>= .ok)
      cases judgeTable o tables y s <;> rfl
    by_cases hpy : ∀ kind, tableKind tables y = some kind → ¬Valid tables y
    · have hy' : judgeTable o tables y = .ok := funext fun s => judgeTable_pass hpy
      rw [hy']
      show (judgeTable o tables x s >>= .ok) = judgeTable o tables x s
      cases judgeTable o tables x s <;> rfl
    push Not at hpx hpy
    obtain ⟨kx, hkx, hvx⟩ := hpx
    obtain ⟨ky, hky, hvy⟩ := hpy
    have hjx : judgeTable o tables x = fun s => (acceptTable o tables x s kx).map (·.state) :=
      funext fun s => judgeTable_accept hkx hvx
    have hjy : judgeTable o tables y = fun s => (acceptTable o tables y s ky).map (·.state) :=
      funext fun s => judgeTable_accept hky hvy
    rw [hjx, hjy]
    cases kx <;> cases ky
    case facp.facp | mcfg.mcfg | apic.apic => exact absurd ⟨hkx, hky⟩ (hne _)
    case facp.mcfg => exact accept_facp_mcfg (hy hky hvy)
    case mcfg.facp => exact (accept_facp_mcfg (hx hkx hvx)).symm
    case facp.apic => exact accept_apic_data (by decide)
    case mcfg.apic => exact accept_apic_data (by decide)
    case apic.facp => exact (accept_apic_data (by decide)).symm
    case apic.mcfg => exact (accept_apic_data (by decide)).symm

end

/-! ## Runs -/

section
variable {o : AcpiObjects} {tables : Mem} {hs hs' : List Nat} {s s₁ : AcpiState}

theorem everyStep_congr {P Q : Nat → AcpiState → Prop} (hpq : ∀ h s, P h s ↔ Q h s) :
    ∀ {hs : List Nat} {s : AcpiState}, EveryStep P o tables hs s ↔ EveryStep Q o tables hs s
  | [], _ => Iff.rfl
  | h :: _, s => and_congr (hpq h s) (forall_congr' fun _ => imp_congr Iff.rfl (everyStep_congr hpq))

/-- The run that judges every table by itself. -/
def judgeTables (o : AcpiObjects) (tables : Mem) (hs : List Nat) (r : Except Fault AcpiState) : Except Fault AcpiState :=
  hs.foldl (fun r h => r >>= judgeTable o tables h) r

theorem judgeTables_error (e : Fault) : ∀ hs : List Nat, judgeTables o tables hs (.error e) = .error e
  | [] => rfl
  | _ :: hs => judgeTables_error e hs

/-- A run whose steps all meet the condition judges every table by itself. -/
theorem handleTables_eq_judge : ∀ {hs : List Nat} {s : AcpiState}, EveryStep (StepMeets o tables) o tables hs s →
    handleTables o tables hs s = judgeTables o tables hs (.ok s)
  | [], s, _ => rfl
  | h :: hs, s, hsteps => by
    have hstep := handleTable_eq_judge hsteps.1
    show (handleTable o tables h s >>= fun r => handleTables o tables hs r.state) =
      judgeTables o tables hs (judgeTable o tables h s)
    rw [← hstep]
    cases hr : handleTable o tables h s with
    | error e => exact (judgeTables_error e hs).symm
    | ok r => exact handleTables_eq_judge (hsteps.2 r hr)

/-- In a run that returns and whose steps all meet the condition, every MCFG table fits. -/
theorem fits_of_run : ∀ {hs : List Nat} {s : AcpiState}, EveryStep (StepMeets o tables) o tables hs s →
    handleTables o tables hs s = .ok s₁ → ∀ h ∈ hs, Fits tables h
  | h :: hs, s, hsteps, hrun, x, hx => by
    obtain ⟨r, hr, hrest⟩ := bind_eq_ok.1 hrun
    rcases List.mem_cons.1 hx with rfl | hx
    · exact fun hk => (hsteps.1 .mcfg hk).2 rfl
    · exact fits_of_run (hsteps.2 r hr) hrest x hx

/-- Tables with distinct signatures. -/
def Distinct (tables : Mem) (hs : List Nat) : Prop := (hs.map (signature tables)).Nodup

instance (tables : Mem) (hs : List Nat) : Decidable (Distinct tables hs) := inferInstanceAs (Decidable (List.Nodup _))

theorem Distinct.kinds (hd : Distinct tables hs) {x y : Nat} (hx : x ∈ hs) (hy : y ∈ hs) (hne : x ≠ y)
    (kind : AcpiTable) : ¬(tableKind tables x = some kind ∧ tableKind tables y = some kind) := by
  rintro ⟨hkx, hky⟩
  exact hne (List.inj_on_of_nodup_map hd hx hy (signature_eq hkx hky))

/-- Every order of tables that can be judged by themselves records the same. -/
theorem judgeTables_perm (hd : Distinct tables hs) (hfits : ∀ h ∈ hs, Fits tables h) (hp : hs.Perm hs')
    (r : Except Fault AcpiState) : judgeTables o tables hs r = judgeTables o tables hs' r := by
  refine hp.foldl_eq' ?_ r
  intro x hx y hy z
  by_cases hxy : x = y
  · rw [hxy]
  · exact judge_comm (hd.kinds hx hy hxy) (hfits x hx) (hfits y hy) z

end

/-! ## Objects still zero -/

/-- The object a table is checked against, as far as it goes. -/
def AcpiTable.checkedSize : AcpiTable → Nat
  | .facp => sizeofFadt
  | .mcfg => sizeofMcfg
  | .apic => sizeofMcfg

/-- A table of one kind is recorded where the other is checked against. -/
def AcpiTable.Spoils : AcpiTable → AcpiTable → Prop
  | .facp, kind => kind = .facp
  | .mcfg, kind => kind ≠ .facp
  | .apic, _ => False

/-- The object that a table of this kind is checked against is zero. -/
def AcpiObjects.ZeroFor (o : AcpiObjects) (data : Mem) (kind : AcpiTable) : Prop :=
  ∀ i < kind.checkedSize, data (o.checked kind + i) = 0

/-- A table that is valid and no longer than the object it is checked against. -/
def Sound (tables : Mem) (h : Nat) (kind : AcpiTable) : Prop :=
  Valid tables h ∧ tableLength tables h ≤ kind.checkedSize

/-- No table comes behind one that is recorded where it is checked against. -/
def Unspoiled (tables : Mem) (hs : List Nat) : Prop :=
  hs.Pairwise fun x y => ∀ kx ky, tableKind tables x = some kx → tableKind tables y = some ky → ¬kx.Spoils ky

section
variable {o : AcpiObjects} {tables : Mem} {h : Nat} {hs : List Nat} {s : AcpiState} {kind kind' : AcpiTable}

theorem calculateChecksum_zero {m : Mem} {a : Nat} : ∀ {n : Nat}, (∀ i < n, m (a + i) = 0) →
    calculateChecksum m a n = 0
  | 0, _ => rfl
  | n + 1, hz => by
    unfold calculateChecksum
    rw [calculateChecksum_zero fun i hi => hz i (by omega), hz n (by omega)]
    rfl

/-- A table recorded elsewhere leaves the object zero. -/
theorem AcpiObjects.ZeroFor.accept {r : Handled} (hz : o.ZeroFor s.data kind') (hr : acceptTable o tables h s kind = .ok r)
    (hlen : tableLength tables h ≤ kind.checkedSize) (hkeep : ¬kind.Spoils kind') : o.ZeroFor r.state.data kind' := by
  have hapart := o.apart
  rw [sizeofFadt_eq, sizeofMcfg_eq] at hapart
  intro i hi
  cases kind with
  | facp =>
    cases hr
    have hmcfg : o.checked kind' = o.mcfg ∧ kind'.checkedSize = sizeofMcfg := by
      cases kind' with
      | facp => exact absurd rfl hkeep
      | mcfg => exact ⟨rfl, rfl⟩
      | apic => exact ⟨rfl, rfl⟩
    have hmin := Nat.min_le_right (tableLength tables h) sizeofFadt
    have hold := hz i hi
    rw [hmcfg.1] at hold ⊢
    rw [hmcfg.2, sizeofMcfg_eq] at hi
    rw [sizeofFadt_eq] at hmin
    show recordFadt o tables h s.data (o.mcfg + i) = 0
    unfold recordFadt
    rw [fullLengthOffset_eq, sizeofFadt_eq, Mem.store_of_lt (by omega), Mem.copy_of_lt (by omega)]
    exact hold
  | mcfg =>
    cases hr
    obtain rfl : kind' = .facp := not_not.1 hkeep
    have hfits : tableLength tables h ≤ 300 := sizeofMcfg_eq ▸ hlen
    have hin : i < 288 := sizeofFadt_eq ▸ hi
    have hold : s.data (o.fadt + i) = 0 := hz i hi
    show recordMcfg o tables h s.data (o.fadt + i) = 0
    unfold recordMcfg
    rw [Mem.copy_of_lt (by omega)]
    exact hold
  | apic =>
    obtain ⟨⟨info, kernel⟩, -, hr⟩ := bind_eq_ok.1 hr
    cases hr
    exact hz i hi

/-- What a sound table does that is checked against zeros. -/
theorem handleTable_zero (hk : tableKind tables h = some kind) (hz : o.ZeroFor s.data kind) (hsound : Sound tables h kind) :
    handleTable o tables h s = acceptTable o tables h s kind ∧ StepMeets o tables h s := by
  have hsum : calculateChecksum s.data (o.checked kind) (tableLength tables h) = 0 :=
    calculateChecksum_zero fun i hi => hz i (Nat.lt_of_lt_of_le hi hsound.2)
  constructor
  · unfold handleTable
    rw [hk]
    exact if_neg (not_not.2 hsum)
  · intro kind' hk'
    rw [hk] at hk'
    cases hk'
    refine ⟨⟨fun _ => hsound.1, fun _ => hsum⟩, ?_⟩
    rintro rfl _
    exact hsound.2

/-- Sound tables in an order that spoils none meet the condition at every step: the objects of those still to come stay
zero. -/
theorem everyStep_of_zero : ∀ {hs : List Nat} {s : AcpiState},
    (∀ h ∈ hs, ∀ kind, tableKind tables h = some kind → o.ZeroFor s.data kind ∧ Sound tables h kind) →
      Unspoiled tables hs → EveryStep (StepMeets o tables) o tables hs s
  | [], _, _, _ => trivial
  | h :: hs, s, hall, horder => by
    obtain ⟨hfirst, hlater⟩ := List.pairwise_cons.1 horder
    have hrest {s' : AcpiState} (hzero : ∀ y ∈ hs, ∀ ky, tableKind tables y = some ky → o.ZeroFor s'.data ky) :
        EveryStep (StepMeets o tables) o tables hs s' :=
      everyStep_of_zero (fun y hy ky hky => ⟨hzero y hy ky hky, (hall y (List.mem_cons_of_mem _ hy) ky hky).2⟩) hlater
    have hold : ∀ y ∈ hs, ∀ ky, tableKind tables y = some ky → o.ZeroFor s.data ky :=
      fun y hy ky hky => (hall y (List.mem_cons_of_mem _ hy) ky hky).1
    cases hk : tableKind tables h with
    | none =>
      refine ⟨fun kind hk' => ?_, fun r hr => ?_⟩
      · rw [hk] at hk'
        cases hk'
      · unfold handleTable at hr
        rw [hk] at hr
        cases hr
        exact hrest hold
    | some kind =>
      obtain ⟨hz, hsound⟩ := hall h List.mem_cons_self kind hk
      obtain ⟨hrun, hmeets⟩ := handleTable_zero hk hz hsound
      refine ⟨hmeets, fun r hr => hrest fun y hy ky hky => ?_⟩
      rw [hrun] at hr
      exact (hold y hy ky hky).accept hr hsound.2 (hfirst y hy kind ky hk hky)

end

/-- Every run accepts each table for its own sake and writes the two objects only, exactly when each of its
steps meets the condition. Two such runs over the same tables with distinct signatures, in any orders, leave
the same state. From objects that are zero, sound tables in an order that spoils none meet it. -/
theorem table_acceptance_iff (o : AcpiObjects) (tables : Mem) (hs : List Nat) (s : AcpiState) :
    (EveryStep (StepTrue o tables) o tables hs s ↔ EveryStep (StepMeets o tables) o tables hs s) ∧
    (Distinct tables hs → EveryStep (StepMeets o tables) o tables hs s →
      ∀ hs', hs.Perm hs' → EveryStep (StepMeets o tables) o tables hs' s →
        ∀ s₁, handleTables o tables hs s = .ok s₁ → handleTables o tables hs' s = .ok s₁) ∧
    ((∀ kind, o.ZeroFor s.data kind) → (∀ h ∈ hs, ∀ kind, tableKind tables h = some kind → Sound tables h kind) →
      Unspoiled tables hs → EveryStep (StepMeets o tables) o tables hs s) := by
  refine ⟨everyStep_congr fun _ _ => stepTrue_iff, ?_, ?_⟩
  · intro hd hsteps hs' hp hsteps' s₁ hrun
    have hfits := fits_of_run hsteps hrun
    rw [handleTables_eq_judge hsteps', ← judgeTables_perm hd hfits hp, ← handleTables_eq_judge hsteps]
    exact hrun
  · exact fun hz hsound => everyStep_of_zero fun h hh kind hk => ⟨hz kind, hsound h hh kind hk⟩

/-! ## Tables at boot -/

/-- A valid FACP table at 0, a valid MCFG table at `0x1000`, a valid APIC table at `0x2000` and an FACP
table without a checksum at `0x3000`. -/
def someTables : Mem :=
  let m : Mem := fun _ => 0
  let m := ((m.store 0 4 0x50434146).store 4 4 36).store 9 1 0xC2
  let m := (((m.store 0x1000 4 0x4746434D).store 0x1004 4 60).store 0x1009 1 0x97).store 0x1030 1 0x10
  let m := ((m.store 0x2000 4 0x43495041).store 0x2004 4 44).store 0x2009 1 0xB7
  (m.store 0x3000 4 0x50434146).store 0x3004 4 36

/-- Both objects, 512 bytes apart. -/
def bootObjects : AcpiObjects := ⟨0, 0x200, by decide +kernel⟩

/-- Both objects are zero. -/
def bootState : AcpiState := ⟨fun _ => 0, 0, freshKernel⟩

/-- The FACP and the MCFG table in either order. -/
theorem table_acceptance_at_boot :
    EveryStep (StepTrue bootObjects someTables) bootObjects someTables [0, 0x1000] bootState ∧
    ∀ s₁, handleTables bootObjects someTables [0, 0x1000] bootState = .ok s₁ →
      handleTables bootObjects someTables [0x1000, 0] bootState = .ok s₁ := by
  have hfacp : tableKind someTables 0 = some .facp := by decide +kernel
  have hmcfg : tableKind someTables 0x1000 = some .mcfg := by decide +kernel
  have hsound : ∀ h ∈ [0, 0x1000], ∀ kind, tableKind someTables h = some kind → Sound someTables h kind := by
    simp only [List.forall_mem_cons, hfacp, hmcfg, Option.some.injEq, forall_eq']
    exact ⟨by unfold Sound; decide +kernel, by unfold Sound; decide +kernel, nofun⟩
  have horder {x y : Nat} {kx ky : AcpiTable} (hx : tableKind someTables x = some kx)
      (hy : tableKind someTables y = some ky) (hkeep : ¬kx.Spoils ky) : Unspoiled someTables [x, y] := by
    refine List.pairwise_pair.2 fun kx' ky' hx' hy' => ?_
    rw [hx] at hx'
    rw [hy] at hy'
    cases hx'
    cases hy'
    exact hkeep
  have hmeets (hs : List Nat) (hmem : ∀ h ∈ hs, h ∈ [0, 0x1000]) (hun : Unspoiled someTables hs) :
      EveryStep (StepMeets bootObjects someTables) bootObjects someTables hs bootState :=
    (table_acceptance_iff bootObjects someTables hs bootState).2.2 (fun _ _ _ => rfl)
      (fun h hh => hsound h (hmem h hh)) hun
  have hforth := hmeets _ (fun _ hh => hh) (horder hfacp hmcfg (show AcpiTable.mcfg ≠ .facp by decide))
  have hback := hmeets [0x1000, 0] (fun _ hh => (List.Perm.swap _ _ _).mem_iff.1 hh)
    (horder hmcfg hfacp (not_not.2 rfl))
  obtain ⟨hiff, hperm, -⟩ := table_acceptance_iff bootObjects someTables [0, 0x1000] bootState
  exact ⟨hiff.2 hforth, hperm (by decide +kernel) hforth _ (List.Perm.swap _ _ _) hback⟩

/-- At boot the FACP table without a checksum is accepted. Behind the MCFG table the valid APIC table is
rejected, which is accepted when it comes first. -/
theorem acceptance_depends_on_history :
    ¬EveryStep (StepTrue bootObjects someTables) bootObjects someTables [0x3000] bootState ∧
    Valid someTables 0x1000 ∧ Valid someTables 0x2000 ∧
    ¬Rejects bootObjects someTables 0x2000 bootState ∧
    ∃ r, handleTable bootObjects someTables 0x1000 bootState = .ok r ∧ r.ret = 0 ∧
      Rejects bootObjects someTables 0x2000 r.state := by
  have hbad : tableKind someTables 0x3000 = some .facp := by decide +kernel
  have hapic : tableKind someTables 0x2000 = some .apic := by decide +kernel
  have hmcfg : tableKind someTables 0x1000 = some .mcfg := by decide +kernel
  refine ⟨?_, by decide +kernel, by decide +kernel, ?_, ?_⟩
  · rintro ⟨⟨haccept, -⟩, -⟩
    have hverdict := haccept .facp hbad
    rw [rejects_iff hbad, not_not] at hverdict
    exact absurd (hverdict.1 (by decide +kernel)) (by decide +kernel)
  · rw [rejects_iff hapic]
    decide +kernel
  · have hrun : handleTable bootObjects someTables 0x1000 bootState =
        acceptTable bootObjects someTables 0x1000 bootState .mcfg := by
      unfold handleTable
      rw [hmcfg]
      exact if_neg (not_not.2 (by decide +kernel))
    refine ⟨_, hrun, rfl, ?_⟩
    rw [rejects_iff hapic]
    decide +kernel

end Icarus.Acpi
