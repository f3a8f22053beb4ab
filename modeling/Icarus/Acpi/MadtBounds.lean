/-
Whether `handle_MADT` stays inside its table (MADT.c): both passes end, but the fixed fields are read whatever the length
of the table is, and the second pass reads an entry of each kind as if it had all of its bytes.
-/
import Icarus.Acpi.TableReads
import Icarus.Base.Records

namespace Icarus.Acpi

open Icarus.Base Icarus.Memory Icarus.Processes

/-! ## The entries both passes go over -/

/-- The entry at `p` is in order: both loops go on behind it. -/
def EntryFits (table : Mem) (stop p : Nat) : Prop :=
  p + 2 ≤ stop ∧ 2 ≤ entryLen table p ∧ p + entryLen table p ≤ stop

instance (table : Mem) (stop p : Nat) : Decidable (EntryFits table stop p) :=
  inferInstanceAs (Decidable (_ ∧ _ ∧ _))

/-- Where the entry behind the one at `p` starts. -/
def EntryNext (table : Mem) (stop p q : Nat) : Prop := EntryFits table stop p ∧ q = p + entryLen table p

/-- A pass from `p` on goes over these entries and then leaves its loop. -/
abbrev PassOver (table : Mem) (stop p : Nat) (ps : List Nat) : Prop :=
  Walked (fun p => ¬EntryFits table stop p) (EntryNext table stop) p ps

/-- The entries in order from `p` on. -/
def entriesFrom (table : Mem) (stop : Nat) : (fuel p : Nat) → List Nat
  | 0, _ => []
  | fuel + 1, p => if EntryFits table stop p then p :: entriesFrom table stop fuel (p + entryLen table p) else []

/-- The entries of the table that are in order. -/
def madtEntries (table : Mem) (header : Nat) : List Nat :=
  entriesFrom table (header + tableLength table header) (tableLength table header) (header + 0x2C)

section
variable {table : Mem} {stop p header : Nat} {ps : List Nat} {fields : Nat → Nat → List Nat}

/-- Every entry takes two bytes or more, so the passes end. -/
theorem entriesFrom_passOver : ∀ (fuel p : Nat), stop ≤ p + fuel → PassOver table stop p (entriesFrom table stop fuel p)
  | 0, p, hfuel => .leave fun hfits => by
    have := hfits.1
    omega
  | fuel + 1, p, hfuel => by
    unfold entriesFrom
    by_cases hfits : EntryFits table stop p
    · rw [if_pos hfits]
      refine .record ⟨hfits, rfl⟩ (entriesFrom_passOver fuel _ ?_)
      have := hfits.2.1
      omega
    · rw [if_neg hfits]
      exact .leave hfits

theorem madtEntries_passOver (table : Mem) (header : Nat) :
    PassOver table (header + tableLength table header) (header + 0x2C) (madtEntries table header) :=
  entriesFrom_passOver _ _ (by omega)

theorem PassOver.length_le (h : PassOver table stop p ps) : 2 * ps.length ≤ stop - p := by
  induction h with
  | leave _ => exact Nat.zero_le _
  | record hnext _ ih =>
    obtain ⟨⟨h1, h2, h3⟩, rfl⟩ := hnext
    rw [List.length_cons]
    omega

theorem madtEntries_length (table : Mem) (header : Nat) :
    2 * (madtEntries table header).length ≤ tableLength table header - 0x2C := by
  have h := (madtEntries_passOver table header).length_le
  omega

/-- A pass over the entries is the loop of the source, which runs out of no fuel. -/
theorem PassOver.forEntries {σ : Type} {body : Nat → Nat → σ → σ} (h : PassOver table stop p ps) :
    ∀ {fuel : Nat} {s : σ}, ps.length ≤ fuel →
      forEntries body table stop fuel p s = ps.foldl (fun s q => body (table q).toNat q s) s := by
  induction h with
  | @leave p hlast =>
    intro fuel s _
    cases fuel with
    | zero => rfl
    | succ fuel =>
      unfold Acpi.forEntries
      by_cases hin : p + 2 ≤ stop
      · rw [if_pos hin, if_pos]
        · rfl
        · by_contra hgood
          refine hlast ⟨hin, ?_, ?_⟩ <;> unfold entryLen <;> omega
      · rw [if_neg hin]
        rfl
  | @record p q ps hnext _ ih =>
    obtain ⟨⟨h1, h2, h3⟩, rfl⟩ := hnext
    intro fuel s hfuel
    cases fuel with
    | zero => cases hfuel
    | succ fuel =>
      unfold entryLen at h2 h3
      unfold Acpi.forEntries
      rw [if_pos h1, if_neg (by omega)]
      exact ih (Nat.le_of_succ_le_succ hfuel)

/-- Both loops of `handle_MADT` end behind the entries of the table. -/
theorem forMadt_eq {σ : Type} (body : Nat → Nat → σ → σ) (table : Mem) (header : Nat) (s : σ) :
    forMadt body table header s = (madtEntries table header).foldl (fun s q => body (table q).toNat q s) s :=
  (madtEntries_passOver table header).forEntries (by have := madtEntries_length table header; omega)

/-! ## What a pass looks at -/

theorem passReads_of_not_fits (h : ¬EntryFits table stop p) (fuel : Nat) :
    ∀ x ∈ passReads fields table stop fuel p, x < stop := by
  intro x hx
  cases fuel with
  | zero => cases hx
  | succ fuel =>
    unfold passReads at hx
    by_cases hin : p + 2 ≤ stop
    · -- an entry out of order is looked at for its type and its length
      rw [if_pos hin] at hx
      dsimp only at hx
      have hbad : (table (p + 1)).toNat < 2 ∨ p + (table (p + 1)).toNat > stop := by
        by_contra hgood
        refine h ⟨hin, ?_, ?_⟩ <;> unfold entryLen <;> omega
      rw [if_pos hbad, List.append_nil, List.mem_range'_1] at hx
      omega
    · rw [if_neg hin] at hx
      cases hx

theorem passReads_of_fits (h : EntryFits table stop p) (fuel : Nat) :
    passReads fields table stop (fuel + 1) p = List.range' p 2 ++
      (fields (table p).toNat p ++ passReads fields table stop fuel (p + entryLen table p)) := by
  obtain ⟨h1, h2, h3⟩ := h
  unfold entryLen at h2 h3
  rw [passReads, if_pos h1]
  dsimp only
  rw [if_neg (by omega)]
  rfl

/-- The types and lengths lie inside the table, so it is up to the fields of the entries. -/
theorem PassOver.passReads_lt (h : PassOver table stop p ps) : ∀ {fuel : Nat}, ps.length < fuel →
    ((∀ x ∈ passReads fields table stop fuel p, x < stop) ↔ ∀ q ∈ ps, ∀ x ∈ fields (table q).toNat q, x < stop) := by
  induction h with
  | leave hlast => exact fun _ => iff_of_true (passReads_of_not_fits hlast _) fun q hq => (nomatch hq)
  | @record p q ps hnext _ ih =>
    obtain ⟨hfits, rfl⟩ := hnext
    intro fuel hfuel
    cases fuel with
    | zero => cases hfuel
    | succ fuel =>
      have hhead : ∀ x ∈ List.range' p 2, x < stop := by
        intro x hx
        have := hfits.1
        rw [List.mem_range'_1] at hx
        omega
      rw [passReads_of_fits hfits, List.forall_mem_append, List.forall_mem_append, List.forall_mem_cons,
        ih (Nat.lt_of_succ_lt_succ hfuel)]
      exact and_iff_right hhead

/-- The second pass looks at the last byte of what the type of an entry has. -/
theorem fieldReads_lt {type : Nat} (hin : p + 2 ≤ stop) :
    (∀ x ∈ fieldReads type p, x < stop) ↔ p + entrySize type ≤ stop := by
  have hspans := entry_spans type p
  constructor
  · intro hall
    by_cases hsmall : entrySize type ≤ 2
    · omega
    · have hlast := hspans.last (by omega)
      rw [max_eq_right (by omega), List.mem_append, List.mem_range'_1] at hlast
      rcases hlast with hhead | hfield
      · omega
      · have := hall _ hfield
        omega
  · intro hle x hx
    have := (hspans.bounds x (List.mem_append_right _ hx)).2
    omega

end

/-! ## Inside the table -/

/-- `handle_MADT` goes over finitely many entries and looks at no byte behind the table. -/
structure MadtInside (table : Mem) (header : Nat) (k : Kernel) : Prop where
  ends : ∃ ps, PassOver table (header + tableLength table header) (header + 0x2C) ps
  inside : ∀ x ∈ madtReads table header k, x < header + tableLength table header

/-- The table has its fixed part and, if they are looked at a second time, the entries of the six known types in full. -/
def MadtComplete (table : Mem) (header : Nat) (k : Kernel) : Prop :=
  0x2C ≤ tableLength table header ∧ ((madtBlock table header k).isSome = true →
    ∀ p ∈ madtEntries table header, p + entrySize (table p).toNat ≤ header + tableLength table header)

instance (table : Mem) (header : Nat) (k : Kernel) : Decidable (MadtComplete table header k) :=
  inferInstanceAs (Decidable (_ ∧ (_ → _)))

section
variable {table : Mem} {header : Nat} {k : Kernel}

theorem PassOver.fits {stop p : Nat} {ps : List Nat} (h : PassOver table stop p ps) : ∀ q ∈ ps, EntryFits table stop q := by
  induction h with
  | leave _ => exact fun q hq => (nomatch hq)
  | record hnext _ ih => exact List.forall_mem_cons.2 ⟨hnext.1, ih⟩

/-- The fixed part: the length, and behind the header the address of the LAPIC and the flags. -/
theorem fixedReads_lt {stop : Nat} :
    (∀ x ∈ lengthReads header ++ List.range' (header + 0x24) 8, x < stop) ↔ header + 0x2C ≤ stop := by
  unfold lengthReads
  rw [length_offset]
  constructor
  · intro hall
    have := hall (header + 0x2B) (List.mem_append_right _ (List.mem_range'_1.2 (by omega)))
    omega
  · intro hle x hx
    rw [List.mem_append, List.mem_range'_1, List.mem_range'_1] at hx
    omega

theorem madtPass_lt {fields : Nat → Nat → List Nat} (hlen : 0x2C ≤ tableLength table header) :
    (∀ x ∈ madtPass fields table header, x < header + tableLength table header) ↔
      ∀ p ∈ madtEntries table header, ∀ x ∈ fields (table p).toNat p, x < header + tableLength table header := by
  have hfew := madtEntries_length table header
  exact (madtEntries_passOver table header).passReads_lt (by omega)

/-- `handle_MADT` always ends. It stays inside the table exactly if the table has its fixed part and, when there is a
block for the arrays, no entry of a type it knows is cut short. -/
theorem madt_inside_iff (table : Mem) (header : Nat) (k : Kernel) :
    MadtInside table header k ↔ MadtComplete table header k := by
  have hends : ∃ ps, PassOver table (header + tableLength table header) (header + 0x2C) ps :=
    ⟨_, madtEntries_passOver table header⟩
  have hinside : MadtInside table header k ↔ ∀ x ∈ madtReads table header k, x < header + tableLength table header :=
    ⟨MadtInside.inside, fun h => ⟨hends, h⟩⟩
  unfold madtReads at hinside
  rw [List.forall_mem_append, List.forall_mem_append, fixedReads_lt, Nat.add_le_add_iff_left, and_assoc] at hinside
  rw [hinside]
  unfold MadtComplete
  refine and_congr_right fun hlen => ?_
  rw [madtPass_lt hlen]
  have hcounted : ∀ p ∈ madtEntries table header, ∀ x ∈ ([] : List Nat), x < header + tableLength table header :=
    fun _ _ x hx => (nomatch hx)
  rw [and_iff_right hcounted]
  by_cases hblock : (madtBlock table header k).isSome = true
  · rw [if_pos hblock, madtPass_lt hlen]
    simp only [hblock, forall_const]
    exact forall₂_congr fun p hp => fieldReads_lt ((madtEntries_passOver table header).fits p hp).1
  · rw [if_neg hblock]
    exact iff_of_true (fun x hx => (nomatch hx)) fun h => absurd h hblock

end

/-- A table of 46 bytes at 0, the last two of which start an entry for a processor. -/
def cutTable : Mem :=
  let m : Mem := fun _ => 0
  (m.store 4 4 46).store 0x2D 1 2

/-- The second pass reads six bytes behind the table. -/
theorem cutTable_not_inside : ¬MadtInside cutTable 0 freshKernel := by
  obtain ⟨k₁, halloc, -⟩ := freshKernel_alloc
  have htotal : madtTotal (countEntries cutTable 0) = 80 := by decide +kernel
  rw [← htotal] at halloc
  have hblock := madtBlock_eq halloc (by decide)
  have hlast : 0x2F ∈ madtPass fieldReads cutTable 0 := by decide +kernel
  intro h
  have hlt := h.inside 0x2F (List.mem_append_right _ (by rw [hblock]; exact hlast))
  exact absurd hlt (by decide +kernel)

end Icarus.Acpi
