/-
The bytes of a table that `handle_table` looks at (ACPI.c, MADT.c) and the pages that are mapped on the way: it looks
at the pages of the table from its first byte to the last one, and maps those of the interrupt controllers alone.
-/
import Icarus.Acpi.Tables
import Icarus.Base.Access

namespace Icarus.Acpi

open Icarus.Base Icarus.Memory Icarus.Processes

/-! ## What is looked at -/

/-- How many characters `Istrncmp` looks at. -/
def comparedChars (m : Mem) : (a : Nat) → List Char → Nat
  | _, [] => 0
  | a, c :: cs => if (m a).toNat ≠ c.toNat then 1 else comparedChars m (a + 1) cs + 1

/-- The comparisons of the signature, up to one that succeeds. -/
def signatureReads (tables : Mem) (h : Nat) : List AcpiTable → List Nat
  | [] => []
  | kind :: kinds => List.range' h (comparedChars tables h kind.name) ++
      if istrncmp tables h kind.name = 0 then [] else signatureReads tables h kinds

/-- The bytes of `h->Length`. -/
def lengthReads (h : Nat) : List Nat := List.range' (h + offsetOf acpiSdtHeader 1) 4

/-- The bytes of an entry at `p` that its `case` in the second pass copies. -/
def fieldReads (type p : Nat) : List Nat :=
  match MadtKind.ofType type with
  | some kind => (kind.assigned.map (fieldCopy kind.info kind.entry)).flatMap fun f => List.range' (p + f.src) f.width
  | none => if type = 5 then List.range' (p + 4) 8 else []

/-- A pass over the entries from `p` on: type and length of each, and its fields when it is in order. -/
def passReads (fields : (type p : Nat) → List Nat) (table : Mem) (stop : Nat) : (fuel p : Nat) → List Nat
  | 0, _ => []
  | fuel + 1, p =>
    if p + 2 ≤ stop then
      let type := (table p).toNat
      let len := (table (p + 1)).toNat
      List.range' p 2 ++
        if len < 2 ∨ p + len > stop then [] else fields type p ++ passReads fields table stop fuel (p + len)
    else []

/-- A pass over the whole table. -/
def madtPass (fields : (type p : Nat) → List Nat) (table : Mem) (header : Nat) : List Nat :=
  passReads fields table (header + tableLength table header) (tableLength table header) (header + 0x2C)

/-- The block `handle_MADT` gets for its arrays, with the kernel behind `Imalloc`. -/
def madtBlock (table : Mem) (header : Nat) (k : Kernel) : Option (Nat × Kernel) :=
  match imalloc (madtTotal (countEntries table header)) k with
  | .ok (info, k) => if info = 0 then none else some (info, k)
  | .error _ => none

/-- The bytes `handle_MADT` looks at: the length, the LAPIC's address, the flags, and the entries once or twice. -/
def madtReads (table : Mem) (header : Nat) (k : Kernel) : List Nat :=
  lengthReads header ++ List.range' (header + 0x24) 8 ++ madtPass (fun _ _ => []) table header ++
    if (madtBlock table header k).isSome then madtPass fieldReads table header else []

/-- The rest of a branch behind its `CHECKSUM`. -/
def acceptReads (tables : Mem) (h : Nat) (k : Kernel) : AcpiTable → List Nat
  | .facp => List.range' h (min (tableLength tables h) sizeofFadt)
  | .mcfg => List.range' h (tableLength tables h)
  | .apic => madtReads tables h k

/-- The bytes of the table at `h` that `handle_table` looks at. -/
def tableReads (o : AcpiObjects) (tables : Mem) (h : Nat) (s : AcpiState) : List Nat :=
  signatureReads tables h [.facp, .mcfg, .apic] ++
    match tableKind tables h with
    | none => []
    | some kind => lengthReads h ++
        if calculateChecksum s.data (o.checked kind) (tableLength tables h) ≠ 0 then []
        else acceptReads tables h s.kernel kind

/-! ## Where it ends -/

/-- The first byte behind the characters compared. -/
def signatureEnd (tables : Mem) (h : Nat) : List AcpiTable → Nat
  | [] => 0
  | kind :: kinds => max (h + comparedChars tables h kind.name)
      (if istrncmp tables h kind.name = 0 then 0 else signatureEnd tables h kinds)

/-- How many bytes of an entry the second pass looks at, the first two apart: all of an entry it copies. -/
def entrySize (type : Nat) : Nat :=
  match MadtKind.ofType type with
  | some kind => sizeOfStruct kind.entry
  | none => if type = 5 then 12 else 0

/-- The first byte behind those a pass from `p` on looks at; 0 when there are none. -/
def passEnd (size : Nat → Nat) (table : Mem) (stop : Nat) : (fuel p : Nat) → Nat
  | 0, _ => 0
  | fuel + 1, p =>
    if p + 2 ≤ stop then
      let type := (table p).toNat
      let len := (table (p + 1)).toNat
      if len < 2 ∨ p + len > stop then p + 2
      else max (p + max 2 (size type)) (passEnd size table stop fuel (p + len))
    else 0

/-- The end of a pass over the whole table. -/
def madtPassEnd (size : Nat → Nat) (table : Mem) (header : Nat) : Nat :=
  passEnd size table (header + tableLength table header) (tableLength table header) (header + 0x2C)

/-- The first byte behind those `handle_MADT` looks at. -/
def madtEnd (table : Mem) (header : Nat) (k : Kernel) : Nat :=
  max (max (header + 0x2C) (madtPassEnd (fun _ => 0) table header))
    (if (madtBlock table header k).isSome then madtPassEnd entrySize table header else 0)

/-- The end of what an accepted table is looked at for. -/
def acceptEnd (tables : Mem) (h : Nat) (k : Kernel) : AcpiTable → Nat
  | .facp => h + min (tableLength tables h) sizeofFadt
  | .mcfg => h + tableLength tables h
  | .apic => madtEnd tables h k

/-- The first byte behind those of the table at `h` that `handle_table` looks at: the characters compared of a table
it does not know, and of the others the length too; all the rest only if `CHECKSUM` lets them pass. -/
def tableEnd (o : AcpiObjects) (tables : Mem) (h : Nat) (s : AcpiState) : Nat :=
  max (signatureEnd tables h [.facp, .mcfg, .apic])
    (match tableKind tables h with
    | none => 0
    | some kind => max (h + 8)
        (if calculateChecksum s.data (o.checked kind) (tableLength tables h) ≠ 0 then 0
        else acceptEnd tables h s.kernel kind))

section
variable {o : AcpiObjects} {tables table : Mem} {h p stop : Nat} {s : AcpiState} {k : Kernel}

@[simp] theorem length_offset : offsetOf acpiSdtHeader 1 = 4 := by decide

theorem comparedChars_pos {c : Char} {cs : List Char} : 0 < comparedChars tables h (c :: cs) := by
  unfold comparedChars
  split_ifs <;> omega

theorem signatureReads_spans : ∀ kinds, Spans 4096 h (signatureEnd tables h kinds) (signatureReads tables h kinds)
  | [] => .nil
  | kind :: kinds => by
    have hpos : 0 < comparedChars tables h kind.name := by cases kind <;> exact comparedChars_pos
    have hlast : Spans 4096 h (if istrncmp tables h kind.name = 0 then 0 else signatureEnd tables h kinds)
        (if istrncmp tables h kind.name = 0 then [] else signatureReads tables h kinds) := by
      split_ifs
      · exact .nil
      · exact signatureReads_spans kinds
    exact (Spans.range (by decide) hpos).append hlast le_rfl fun _ => .inl rfl

theorem mem_signatureReads {kind : AcpiTable} {kinds : List AcpiTable} :
    h ∈ signatureReads tables h (kind :: kinds) := by
  have hpos : 0 < comparedChars tables h kind.name := by cases kind <;> exact comparedChars_pos
  refine List.mem_append_left _ ?_
  rw [List.mem_range'_1]
  omega

theorem lengthReads_spans : Spans 4096 (h + 4) (h + 8) (lengthReads h) := by
  unfold lengthReads
  rw [length_offset]
  exact .range (n := 4) (by decide) (by decide)

/-- The fields of an entry lie close behind its first two bytes. -/
theorem fields_spans : ∀ {fs : List FieldCopy} {as : List Nat} {n : Nat},
    (∀ f ∈ fs, 2 ≤ f.src ∧ f.src ≤ 16 ∧ 0 < f.width) → Spans 4096 p (p + n) as → p + 1 ∈ as →
      Spans 4096 p (p + (fs.map fun f => f.src + f.width).foldl max n)
        (as ++ fs.flatMap fun f => List.range' (p + f.src) f.width)
  | [], as, n, _, has, _ => by simpa using has
  | f :: fs, as, n, hfs, has, hp => by
    obtain ⟨h2, h16, hw⟩ := hfs f List.mem_cons_self
    have hfield : Spans 4096 p (max (p + n) (p + f.src + f.width)) (as ++ List.range' (p + f.src) f.width) :=
      has.append (.range (by decide) hw) (by omega) fun _ => .inr ⟨p + 1, hp, by omega, by omega⟩
    rw [Nat.add_assoc, Nat.add_max_add_left] at hfield
    have hrest := fields_spans (fun g hg => hfs g (List.mem_cons_of_mem f hg)) hfield (List.mem_append_left _ hp)
    rwa [List.append_assoc] at hrest

theorem entry_spans (type p : Nat) :
    Spans 4096 p (p + max 2 (entrySize type)) (List.range' p 2 ++ fieldReads type p) := by
  have hhead : Spans 4096 p (p + 2) (List.range' p 2) := .range (by decide) (by decide)
  have hsecond : p + 1 ∈ List.range' p 2 := by
    rw [List.mem_range'_1]
    omega
  unfold entrySize fieldReads
  cases MadtKind.ofType type with
  | some kind =>
    have hfields : ∀ f ∈ kind.assigned.map (fieldCopy kind.info kind.entry), 2 ≤ f.src ∧ f.src ≤ 16 ∧ 0 < f.width := by
      cases kind <;> decide
    have hsize : ((kind.assigned.map (fieldCopy kind.info kind.entry)).map fun f => f.src + f.width).foldl max 2 =
        max 2 (sizeOfStruct kind.entry) := by
      cases kind <;> decide
    dsimp only
    rw [← hsize]
    exact fields_spans hfields hhead hsecond
  | none =>
    dsimp only
    by_cases h5 : type = 5
    · rw [if_pos h5, if_pos h5]
      have haddr := hhead.append (b := p + 4) (.range (by decide) (by decide : 0 < 8)) (by omega)
        fun _ => .inr ⟨p + 1, hsecond, by omega, by omega⟩
      rwa [max_eq_right (by omega)] at haddr
    · rw [if_neg h5, if_neg h5, List.append_nil]
      exact hhead

/-- A pass leaves no page out, since an entry has fewer than 256 bytes. -/
theorem passReads_spans {fields : Nat → Nat → List Nat} {size : Nat → Nat}
    (hfields : ∀ type p, Spans 4096 p (p + max 2 (size type)) (List.range' p 2 ++ fields type p)) :
    ∀ fuel p, Spans 4096 p (passEnd size table stop fuel p) (passReads fields table stop fuel p)
  | 0, _ => .nil
  | fuel + 1, p => by
    unfold passEnd passReads
    by_cases hfit : p + 2 ≤ stop
    · rw [if_pos hfit, if_pos hfit]
      dsimp only
      by_cases hbad : (table (p + 1)).toNat < 2 ∨ p + (table (p + 1)).toNat > stop
      · rw [if_pos hbad, if_pos hbad, List.append_nil]
        exact .range (by decide) (by decide)
      · rw [if_neg hbad, if_neg hbad, ← List.append_assoc]
        have hlen := (table (p + 1)).isLt
        refine (hfields _ p).append (passReads_spans hfields fuel _) (by omega) fun _ =>
          .inr ⟨p + 1, ?_, by omega, by omega⟩
        refine List.mem_append_left _ ?_
        rw [List.mem_range'_1]
        omega
    · rw [if_neg hfit, if_neg hfit]
      exact .nil

/-- A pass ends at most 14 bytes behind the table: it finds the first two bytes of each entry inside, and none that it
copies has more than 16. -/
theorem passEnd_le {size : Nat → Nat} (hsize : ∀ type, size type ≤ 16) :
    ∀ fuel p, passEnd size table stop fuel p ≤ stop + 14
  | 0, _ => Nat.zero_le _
  | fuel + 1, p => by
    unfold passEnd
    by_cases hfit : p + 2 ≤ stop
    · rw [if_pos hfit]
      dsimp only
      by_cases hbad : (table (p + 1)).toNat < 2 ∨ p + (table (p + 1)).toNat > stop
      · rw [if_pos hbad]
        omega
      · rw [if_neg hbad]
        have hentry := hsize (table p).toNat
        exact max_le (by omega) (passEnd_le hsize fuel _)
    · rw [if_neg hfit]
      exact Nat.zero_le _

theorem entrySize_le (type : Nat) : entrySize type ≤ 16 := by
  unfold entrySize
  cases MadtKind.ofType type with
  | some kind =>
    show sizeOfStruct kind.entry ≤ 16
    cases kind <;> decide
  | none =>
    dsimp only
    split_ifs <;> omega

theorem madtReads_spans : Spans 4096 (h + 4) (madtEnd table h k) (madtReads table h k) := by
  have hfirst : Spans 4096 (h + 0x2C) (madtPassEnd (fun _ => 0) table h) (madtPass (fun _ _ => []) table h) :=
    passReads_spans (fun type p => by rw [List.append_nil]; exact .range (n := 2) (by decide) (by decide)) _ _
  have hsecond : Spans 4096 (h + 0x2C) (if (madtBlock table h k).isSome then madtPassEnd entrySize table h else 0)
      (if (madtBlock table h k).isSome then madtPass fieldReads table h else []) := by
    split_ifs
    · exact passReads_spans entry_spans _ _
    · exact .nil
  have hlength : Spans 4096 (h + 4) (h + 8) (lengthReads h) := lengthReads_spans
  have hfixed : Spans 4096 (h + 4) (h + 0x2C) (lengthReads h ++ List.range' (h + 0x24) 8) := by
    have hmax := hlength.append (b := h + 0x24) (.range (by decide) (by decide : 0 < 8)) (by omega)
      fun _ => .inr ⟨h + 7, hlength.last (by omega), by omega, by omega⟩
    rwa [max_eq_right (by omega)] at hmax
  have hflags : h + 0x2B ∈ lengthReads h ++ List.range' (h + 0x24) 8 := hfixed.last (by omega)
  have hcounted := hfixed.append hfirst (by omega) fun _ => .inr ⟨h + 0x2B, hflags, by omega, by omega⟩
  exact hcounted.append hsecond (by omega) fun _ =>
    .inr ⟨h + 0x2B, List.mem_append_left _ hflags, by omega, by omega⟩

/-- The reads start at the first byte of the table, end where they are said to, and leave out no page between. -/
theorem tableReads_spans : Spans 4096 h (tableEnd o tables h s) (tableReads o tables h s) := by
  have hsig : Spans 4096 h _ (signatureReads tables h [.facp, .mcfg, .apic]) := signatureReads_spans _
  have hfirst : h ∈ signatureReads tables h [.facp, .mcfg, .apic] := mem_signatureReads
  unfold tableEnd tableReads
  cases tableKind tables h with
  | none => exact hsig.append .nil le_rfl fun hne => absurd rfl hne
  | some kind =>
    have hheader := hsig.append (lengthReads_spans (h := h)) (by omega) fun _ => .inr ⟨h, hfirst, by omega, by omega⟩
    dsimp only
    rw [← max_assoc, ← List.append_assoc]
    by_cases hsum : calculateChecksum s.data (o.checked kind) (tableLength tables h) ≠ 0
    · rw [if_pos hsum, if_pos hsum]
      exact hheader.append .nil le_rfl fun hne => absurd rfl hne
    · rw [if_neg hsum, if_neg hsum]
      cases kind with
      | facp => exact hheader.append_range (by decide) (by omega)
      | mcfg => exact hheader.append_range (by decide) (by omega)
      | apic =>
        exact hheader.append (madtReads_spans (h := h)) (by omega) fun _ =>
          .inr ⟨h, List.mem_append_left _ hfirst, by omega, by omega⟩

theorem comparedChars_le : ∀ {cs : List Char} {a : Nat}, comparedChars tables a cs ≤ cs.length
  | [], _ => le_rfl
  | c :: cs, a => by
    have hrest := @comparedChars_le cs (a + 1)
    unfold comparedChars
    rw [List.length_cons]
    split_ifs <;> omega

theorem signatureEnd_le : ∀ kinds : List AcpiTable, signatureEnd tables h kinds ≤ h + 4
  | [] => Nat.zero_le _
  | kind :: kinds => by
    have hchars : comparedChars tables h kind.name ≤ 4 := by
      have hle := @comparedChars_le tables kind.name h
      cases kind <;> exact hle
    have hrest := signatureEnd_le kinds
    unfold signatureEnd
    split_ifs <;> omega

/-- Whatever the state, a table is looked at no further than an entry behind its last byte, or up to where the entries
of an APIC table start. -/
theorem tableEnd_le : tableEnd o tables h s ≤ h + max 0x2C (tableLength tables h + 14) := by
  have hsig : signatureEnd tables h [.facp, .mcfg, .apic] ≤ h + 4 := signatureEnd_le _
  unfold tableEnd
  refine max_le (by omega) ?_
  cases tableKind tables h with
  | none => exact Nat.zero_le _
  | some kind =>
    dsimp only
    refine max_le (by omega) ?_
    by_cases hsum : calculateChecksum s.data (o.checked kind) (tableLength tables h) ≠ 0
    · rw [if_pos hsum]
      exact Nat.zero_le _
    · rw [if_neg hsum]
      cases kind with
      | facp =>
        show h + min (tableLength tables h) sizeofFadt ≤ _
        omega
      | mcfg =>
        show h + tableLength tables h ≤ _
        omega
      | apic =>
        have hpass (size : Nat → Nat) (hsize : ∀ type, size type ≤ 16) :
            madtPassEnd size tables h ≤ h + tableLength tables h + 14 := passEnd_le hsize _ _
        have hfirst := hpass (fun _ => 0) fun _ => Nat.zero_le _
        have hsecond := hpass entrySize entrySize_le
        show madtEnd tables h s.kernel ≤ _
        unfold madtEnd
        refine max_le (max_le (by omega) (by omega)) ?_
        split_ifs <;> omega

end

/-! ## Nothing else counts -/

/-- Two memories hold the same at the addresses `as`. -/
def AgreeOn (as : List Nat) (m m' : Mem) : Prop := ∀ x ∈ as, m x = m' x

section
variable {tables tables' : Mem} {h p stop n : Nat} {as bs : List Nat}

theorem agreeOn_append : AgreeOn (as ++ bs) tables tables' ↔ AgreeOn as tables tables' ∧ AgreeOn bs tables tables' :=
  List.forall_mem_append

theorem AgreeOn.load (hag : AgreeOn (List.range' p n) tables tables') : tables.load p n = tables'.load p n :=
  Mem.load_congr fun x h1 h2 => hag x (List.mem_range'_1.2 ⟨h1, h2⟩)

theorem AgreeOn.copy {m : Mem} {d : Nat} (hag : AgreeOn (List.range' p n) tables tables') :
    m.copy d tables p n = m.copy d tables' p n := by
  funext x
  unfold Mem.copy
  split_ifs with hx
  · exact hag _ (List.mem_range'_1.2 (by omega))
  · rfl

theorem tableLength_congr (hag : AgreeOn (lengthReads h) tables tables') :
    tableLength tables h = tableLength tables' h :=
  congrArg BitVec.toNat (AgreeOn.load hag)

theorem istrncmp_congr : ∀ {cs : List Char} {a : Nat},
    AgreeOn (List.range' a (comparedChars tables a cs)) tables tables' →
    istrncmp tables a cs = istrncmp tables' a cs
  | [], _, _ => rfl
  | c :: cs, a, hag => by
    have hfirst : tables a = tables' a :=
      hag a (List.mem_range'_1.2 ⟨le_rfl, by have := @comparedChars_pos tables a c cs; omega⟩)
    unfold istrncmp
    rw [← hfirst]
    by_cases hc : (tables a).toNat ≠ c.toNat
    · rw [if_pos hc, if_pos hc]
    · rw [if_neg hc, if_neg hc]
      refine istrncmp_congr fun x hx => hag x ?_
      unfold comparedChars
      rw [if_neg hc]
      rw [List.mem_range'_1] at hx ⊢
      omega

/-- The branches of `handle_table` are tried one after the other. -/
theorem tableKind_eq_find : tableKind tables h =
    [AcpiTable.facp, .mcfg, .apic].find? fun kind => decide (istrncmp tables h kind.name = 0) := by
  unfold tableKind
  simp only [List.find?_cons, List.find?_nil, AcpiTable.name]
  split_ifs with h1 h2 h3 <;> simp [*]

theorem findKind_congr : ∀ {kinds : List AcpiTable}, AgreeOn (signatureReads tables h kinds) tables tables' →
    kinds.find? (fun kind => decide (istrncmp tables h kind.name = 0)) =
      kinds.find? fun kind => decide (istrncmp tables' h kind.name = 0)
  | [], _ => rfl
  | kind :: kinds, hag => by
    obtain ⟨hfirst, hrest⟩ := agreeOn_append.1 hag
    have hcompare := istrncmp_congr hfirst
    rw [List.find?_cons, List.find?_cons, ← hcompare]
    by_cases hz : istrncmp tables h kind.name = 0
    · simp [hz]
    · rw [if_neg hz] at hrest
      simp [hz, findKind_congr hrest]

theorem tableKind_congr (hag : AgreeOn (signatureReads tables h [.facp, .mcfg, .apic]) tables tables') :
    tableKind tables h = tableKind tables' h := by
  rw [tableKind_eq_find, tableKind_eq_find, findKind_congr hag]

/-- A pass over the entries, the same in two tables that agree on what it looks at. -/
theorem forEntries_congr {σ : Type} {fields : Nat → Nat → List Nat} {body body' : Nat → Nat → σ → σ}
    (hbody : ∀ type p s, AgreeOn (fields type p) tables tables' → body type p s = body' type p s) :
    ∀ (fuel p : Nat) (s : σ), AgreeOn (passReads fields tables stop fuel p) tables tables' →
      forEntries body tables stop fuel p s = forEntries body' tables' stop fuel p s
  | 0, _, _, _ => rfl
  | fuel + 1, p, s, hag => by
    unfold passReads at hag
    unfold forEntries
    by_cases hfit : p + 2 ≤ stop
    · rw [if_pos hfit] at hag ⊢
      rw [if_pos hfit]
      obtain ⟨hhead, hrest⟩ := agreeOn_append.1 hag
      have htype : tables p = tables' p := hhead p (List.mem_range'_1.2 (by omega))
      have hlen : tables (p + 1) = tables' (p + 1) := hhead (p + 1) (List.mem_range'_1.2 (by omega))
      dsimp only at hrest ⊢
      rw [← htype, ← hlen]
      by_cases hbad : (tables (p + 1)).toNat < 2 ∨ p + (tables (p + 1)).toNat > stop
      · rw [if_pos hbad, if_pos hbad]
      · rw [if_neg hbad] at hrest
        obtain ⟨hfields, hnext⟩ := agreeOn_append.1 hrest
        rw [if_neg hbad, if_neg hbad, hbody _ _ s hfields]
        exact forEntries_congr hbody fuel _ _ hnext
    · rw [if_neg hfit, if_neg hfit]

theorem forMadt_congr {σ : Type} (fields : Nat → Nat → List Nat) {body body' : Nat → Nat → σ → σ}
    (hbody : ∀ type p s, AgreeOn (fields type p) tables tables' → body type p s = body' type p s)
    (hlen : tableLength tables h = tableLength tables' h) (hag : AgreeOn (madtPass fields tables h) tables tables')
    (s : σ) :
    forMadt body tables h s = forMadt body' tables' h s := by
  unfold forMadt
  rw [← hlen]
  exact forEntries_congr hbody _ _ s hag

theorem copyFields_congr {slot : Nat} : ∀ {fs : List FieldCopy} {m : Mem},
    AgreeOn (fs.flatMap fun f => List.range' (p + f.src) f.width) tables tables' →
      copyFields tables p slot fs m = copyFields tables' p slot fs m
  | [], _, _ => rfl
  | f :: fs, m, hag => by
    obtain ⟨hfield, hrest⟩ := agreeOn_append.1 hag
    unfold copyFields
    rw [hfield.copy]
    exact copyFields_congr hrest

theorem fillEntry_congr {info type : Nat} {m : Mem} (hag : AgreeOn (fieldReads type p) tables tables') :
    fillEntry tables info type p m = fillEntry tables' info type p m := by
  unfold fieldReads at hag
  unfold fillEntry
  cases hkind : MadtKind.ofType type with
  | some kind =>
    rw [hkind] at hag
    exact copyFields_congr hag
  | none =>
    rw [hkind] at hag
    dsimp only at hag ⊢
    by_cases h5 : type = 5
    · rw [if_pos h5] at hag
      rw [if_pos h5, if_pos h5]
      exact congrArg (m.store64 info) hag.load
    · rw [if_neg h5, if_neg h5]

theorem madtBlock_eq {k k₁ : Kernel} {info : Nat}
    (halloc : imalloc (madtTotal (countEntries tables h)) k = .ok (info, k₁)) (h0 : info ≠ 0) :
    madtBlock tables h k = some (info, k₁) := by
  unfold madtBlock
  rw [halloc]
  exact if_neg h0

theorem handleMadt_congr {k : Kernel} (hag : AgreeOn (madtReads tables h k) tables tables') :
    handleMadt tables h k = handleMadt tables' h k := by
  unfold madtReads at hag
  obtain ⟨hag, hsecond⟩ := agreeOn_append.1 hag
  obtain ⟨hag, hfirst⟩ := agreeOn_append.1 hag
  obtain ⟨hlength, hfixed⟩ := agreeOn_append.1 hag
  have hlen := tableLength_congr hlength
  have hcount : countEntries tables h = countEntries tables' h :=
    forMadt_congr (fun _ _ => []) (fun _ _ _ _ => rfl) hlen hfirst _
  have hlapic : tables.load (h + 0x24) 4 = tables'.load (h + 0x24) 4 :=
    AgreeOn.load fun x hx => hfixed x (by rw [List.mem_range'_1] at hx ⊢; omega)
  have hflags : tables.load (h + 0x28) 4 = tables'.load (h + 0x28) 4 :=
    AgreeOn.load fun x hx => hfixed x (by rw [List.mem_range'_1] at hx ⊢; omega)
  unfold handleMadt
  rw [← hcount]
  cases himalloc : imalloc (madtTotal (countEntries tables h)) k with
  | error e => dsimp only [bind, Except.bind]
  | ok r =>
    obtain ⟨info, k₁⟩ := r
    dsimp only [bind, Except.bind]
    by_cases h0 : info = 0
    · rw [if_pos h0, if_pos h0]
    · rw [if_pos (by rw [madtBlock_eq himalloc h0, Option.isSome_some])] at hsecond
      have hdecode : decodeMadt tables h info k₁.heap.heap.mem = decodeMadt tables' h info k₁.heap.heap.mem := by
        unfold decodeMadt initMadtInfo
        rw [← hcount, ← hlapic, ← hflags]
        exact forMadt_congr fieldReads (fun _ _ _ hfields => fillEntry_congr hfields) hlen hsecond _
      rw [if_neg h0, if_neg h0, hdecode]

/-- What `handle_table` does follows from the bytes it looks at. -/
theorem handleTable_congr {o : AcpiObjects} {s : AcpiState} (hag : AgreeOn (tableReads o tables h s) tables tables') :
    handleTable o tables h s = handleTable o tables' h s := by
  unfold tableReads at hag
  obtain ⟨hsig, hag⟩ := agreeOn_append.1 hag
  unfold handleTable
  rw [← tableKind_congr hsig]
  cases hkind : tableKind tables h with
  | none => rfl
  | some kind =>
    rw [hkind] at hag
    obtain ⟨hlength, hrest⟩ := agreeOn_append.1 hag
    have hlen := tableLength_congr hlength
    dsimp only
    rw [← hlen]
    by_cases hsum : calculateChecksum s.data (o.checked kind) (tableLength tables h) ≠ 0
    · rw [if_pos hsum, if_pos hsum]
    · rw [if_neg hsum] at hrest
      rw [if_neg hsum, if_neg hsum]
      cases kind with
      | facp =>
        unfold acceptTable recordFadt
        dsimp only
        rw [← hlen, AgreeOn.copy hrest]
      | mcfg =>
        unfold acceptTable recordMcfg
        dsimp only
        rw [← hlen, AgreeOn.copy hrest]
      | apic =>
        unfold acceptTable
        dsimp only
        rw [handleMadt_congr hrest]

end

/-! ## What is mapped -/

/-- The page of an address of 64 bits. -/
def windowPage (a : Nat) : Nat := a / 4096 % 2 ^ 52

/-- `map_mmio` of one page for device memory. -/
def mapPage (addr : Nat) (k : Kernel) : Nat × Kernel :=
  match mapMmio (iallocKframe · 1) k.sched.cr3 addr defaultPageSize (writeable ||| cacheDisabled) k.mem k.mmap with
  | (ret, mem, mmap) => (ret, { k with mem, mmap })

/-- `handle_MADT` maps its addresses by such calls. -/
theorem mapPages_eq (addrs : List Nat) (k : Kernel) :
    mapPages addrs k = addrs.foldl (fun k addr => (mapPage addr k).2) k :=
  rfl

/-- The pages that `map_mmio` hands to `page_in`. -/
def mmioPages (addr size : Nat) : List Nat :=
  (List.range ((size + 4095) / 4096)).map fun j =>
    windowPage (mmioPhysToVirt (add64 (alignDown addr defaultPageSize) (4096 * j)))

/-- The pages mapped by the calls of `map_mmio` that succeed. -/
def mappedPages : List Nat → Kernel → List Nat
  | [], _ => []
  | addr :: addrs, k =>
    (if (mapPage addr k).1 = frameAllocFailed then [] else mmioPages addr defaultPageSize) ++
      mappedPages addrs (mapPage addr k).2

/-- The pages `handle_MADT` maps. -/
def madtMaps (table : Mem) (header : Nat) (k : Kernel) : List Nat :=
  match madtBlock table header k with
  | some (info, k) =>
    let mem := decodeMadt table header info k.heap.heap.mem
    mappedPages (mappedAddrs info mem) { k with heap := { k.heap with heap := { k.heap.heap with mem } } }
  | none => []

/-- The pages `handle_table` maps, all of them when it has looked at the table. -/
def tableMaps (o : AcpiObjects) (tables : Mem) (h : Nat) (s : AcpiState) : List Nat :=
  match tableKind tables h with
  | some .apic =>
    if calculateChecksum s.data (o.checked .apic) (tableLength tables h) ≠ 0 then [] else madtMaps tables h s.kernel
  | _ => []

end Icarus.Acpi
