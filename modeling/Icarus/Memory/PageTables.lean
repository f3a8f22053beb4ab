/-
The tree of page tables: which frames are tables, of which level and for which part of the address
space, and what the steps of `page_in` do to it and to the walks through it.
-/
import Icarus.Memory.Paging

namespace Icarus.Memory

open Icarus.Base

/-! ## Addresses -/

/-- The bits of an address above those a table of `level` levels decides; the bits above 47 do not count. -/
def vaPrefix (va level : Nat) : Nat := va % 2 ^ 48 / 2 ^ (12 + 9 * level)

theorem vaPrefix_four (va : Nat) : vaPrefix va 4 = 0 := by
  unfold vaPrefix
  omega

theorem vaPrefix_succ (va : Nat) {level : Nat} (h : level ≤ 3) :
    vaPrefix va level = vaPrefix va (level + 1) * 512 + vaIndex va level := by
  unfold vaPrefix vaIndex
  interval_cases level <;> omega

theorem vaIndex_lt (va level : Nat) : vaIndex va level < 512 := Nat.mod_lt _ (by decide)

/-- Addresses of one page of level `stop` have their indices in common down to that level. -/
theorem vaIndex_congr {va va' stop l : Nat} (h : vaPrefix va' stop = vaPrefix va stop) (h1 : stop ≤ l)
    (h2 : l ≤ 3) : vaIndex va' l = vaIndex va l := by
  have hstop : stop ≤ 3 := h1.trans h2
  unfold vaPrefix at h
  unfold vaIndex
  interval_cases stop <;> interval_cases l <;> omega

theorem vaIndex_macros (va : Nat) : vaPml4Index va = vaIndex va 3 ∧ vaPdptIndex va = vaIndex va 2 ∧
    vaPdIndex va = vaIndex va 1 ∧ vaPtIndex va = vaIndex va 0 := by
  have hmask : ∀ x, x &&& vaIndexMask = x % 512 := fun x => Nat.and_two_pow_sub_one_eq_mod x 9
  unfold vaPml4Index vaPdptIndex vaPdIndex vaPtIndex vaIndex
  refine ⟨?_, ?_, ?_, ?_⟩ <;> rw [hmask, Nat.shiftRight_eq_div_pow]

/-! ## Entries of different tables -/

/-- Entries of aligned tables are the same one or do not overlap. -/
theorem entryAt_setEntry {m : Mem} {f g i j : Nat} {e : Entry} (hf : f % 4096 = 0) (hg : g % 4096 = 0)
    (hi : i < 512) (hj : j < 512) :
    entryAt (setEntry m f i e) g j = if g = f ∧ j = i then e else entryAt m g j := by
  unfold entryAt setEntry
  split_ifs with h
  · rw [h.1, h.2]
    exact Mem.load64_store64_same ..
  · exact Mem.load64_store64_disjoint m (by omega)

/-- Memory that holds only zeros. -/
theorem entryAt_zero (f i : Nat) : entryAt (fun _ => 0) f i = 0 := by
  apply BitVec.eq_of_getLsbD_eq
  intro j hj
  exact (Mem.load_getLsbD _ _ 8 j hj).trans (BitVec.getLsbD_zero.trans BitVec.getLsbD_zero.symm)

/-- A zeroed frame. -/
theorem entryAt_fill_self {m : Mem} {c j : Nat} (hj : j < 512) :
    entryAt (m.fill c defaultPageSize 0) c j = 0 := by
  unfold entryAt defaultPageSize
  exact Mem.load_fill_zero (by omega) (by omega)

theorem entryAt_fill_of_ne {m : Mem} {c g j : Nat} (hc : c % 4096 = 0) (hg : g % 4096 = 0) (hne : g ≠ c)
    (hj : j < 512) : entryAt (m.fill c defaultPageSize 0) g j = entryAt m g j := by
  unfold entryAt defaultPageSize
  exact Mem.load_fill_disjoint (by omega)

/-! ## The tree -/

/-- Which frames are tables: the level of each (4 for a PML4, 0 for a frame that is no table) and the
address prefix it serves. -/
structure Tables where
  level : Nat → Nat
  pre : Nat → Nat

namespace Tables

/-- One more table. -/
def insert (T : Tables) (c level pre : Nat) : Tables where
  level := Function.update T.level c level
  pre := Function.update T.pre c pre

/-- The tables of `T` are tables of `T'`. -/
def Le (T T' : Tables) : Prop := ∀ g, T.level g ≠ 0 → T'.level g = T.level g ∧ T'.pre g = T.pre g

theorem Le.refl (T : Tables) : T.Le T := fun _ _ => ⟨rfl, rfl⟩

theorem Le.trans {T T' T'' : Tables} (h : T.Le T') (h' : T'.Le T'') : T.Le T'' := fun g hg => by
  obtain ⟨h1, h2⟩ := h g hg
  obtain ⟨h3, h4⟩ := h' g (by rwa [h1])
  exact ⟨h3.trans h1, h4.trans h2⟩

/-- Tables are aligned, their reserved bits are 0, and every present entry that does not end the walk points
to a table of the next level, below 2 GiB. -/
structure WF (T : Tables) (m : Mem) : Prop where
  aligned : ∀ f, T.level f ≠ 0 → f % 4096 = 0
  reserved : ∀ f i, T.level f ≠ 0 → i < 512 → (entryAt m f i).reserved = 0
  child : ∀ f i l, T.level f = l + 2 → i < 512 → (entryAt m f i).present = true →
    ¬(entryAt m f i).EndsWalk (l + 1) →
      T.level ((entryAt m f i).pagePpn * 4096) = l + 1 ∧ (entryAt m f i).pagePpn < 2 ^ 19

/-- Every table is reached through the entries of its prefix only. -/
def Placed (T : Tables) (m : Mem) : Prop :=
  ∀ f i l, T.level f = l + 2 → i < 512 → (entryAt m f i).present = true → ¬(entryAt m f i).EndsWalk (l + 1) →
    T.pre ((entryAt m f i).pagePpn * 4096) = T.pre f * 512 + i

end Tables

theorem endsWalk_zero (e : Entry) : e.EndsWalk 0 := .inl rfl

/-- Writing one entry of a table. -/
theorem Tables.WF.setEntry {T : Tables} {m : Mem} (h : T.WF m) {f i l : Nat} {e : Entry} (hf : T.level f = l + 1)
    (hi : i < 512) (hr : e.reserved = 0)
    (hchild : e.present = true → ¬e.EndsWalk l → T.level (e.pagePpn * 4096) = l ∧ e.pagePpn < 2 ^ 19) :
    T.WF (setEntry m f i e) := by
  have hfa := h.aligned f (by omega)
  have hat : ∀ g j, T.level g ≠ 0 → j < 512 →
      entryAt (Memory.setEntry m f i e) g j = if g = f ∧ j = i then e else entryAt m g j := fun g j hg hj =>
    entryAt_setEntry hfa (h.aligned g hg) hi hj
  refine ⟨h.aligned, fun g j hg hj => ?_, fun g j k hg hj => ?_⟩
  · rw [hat g j hg hj]
    split_ifs
    · exact hr
    · exact h.reserved g j hg hj
  · rw [hat g j (by omega) hj]
    split_ifs with hgf
    · obtain ⟨rfl, rfl⟩ := hgf
      obtain rfl : l = k + 1 := by omega
      exact hchild
    · exact h.child g j k hg hj

theorem Tables.Placed.setEntry {T : Tables} {m : Mem} (hwf : T.WF m) (h : T.Placed m) {f i l : Nat} {e : Entry}
    (hf : T.level f = l + 1) (hi : i < 512)
    (he : e.present = true → ¬e.EndsWalk l → T.pre (e.pagePpn * 4096) = T.pre f * 512 + i) :
    T.Placed (setEntry m f i e) := by
  intro g j k hg hj
  rw [entryAt_setEntry (hwf.aligned f (by omega)) (hwf.aligned g (by omega)) hi hj]
  split_ifs with hgf
  · obtain ⟨rfl, rfl⟩ := hgf
    obtain rfl : l = k + 1 := by omega
    exact he
  · exact h g j k hg hj

/-- A zeroed frame becomes a table. -/
theorem Tables.WF.insert {T : Tables} {m : Mem} (h : T.WF m) {c l pre : Nat} (hc : c % 4096 = 0)
    (hnew : T.level c = 0) : (T.insert c l pre).WF (m.fill c defaultPageSize 0) := by
  have hsame : ∀ g, g ≠ c → (T.insert c l pre).level g = T.level g := fun g hg => Function.update_of_ne hg ..
  have hself : ∀ j, j < 512 → entryAt (m.fill c defaultPageSize 0) c j = 0 := fun j hj => entryAt_fill_self hj
  have hat : ∀ g j, T.level g ≠ 0 → g ≠ c → j < 512 → entryAt (m.fill c defaultPageSize 0) g j = entryAt m g j :=
    fun g j hg hne hj => entryAt_fill_of_ne hc (h.aligned g hg) hne hj
  refine ⟨fun g hg => ?_, fun g j hg hj => ?_, fun g j k hg hj => ?_⟩
  · by_cases hgc : g = c
    · rwa [hgc]
    · exact h.aligned g (by rwa [← hsame g hgc])
  · by_cases hgc : g = c
    · rw [hgc, hself j hj]
      rfl
    · rw [hsame g hgc] at hg
      rw [hat g j hg hgc hj]
      exact h.reserved g j hg hj
  · by_cases hgc : g = c
    · rw [hgc, hself j hj]
      intro hp
      cases hp
    · rw [hsame g hgc] at hg
      rw [hat g j (by omega) hgc hj]
      intro hp he
      obtain ⟨h1, h2⟩ := h.child g j k hg hj hp he
      refine ⟨?_, h2⟩
      rw [hsame _ (by rintro hcc; rw [hcc] at h1; omega)]
      exact h1

theorem Tables.Placed.insert {T : Tables} {m : Mem} (hwf : T.WF m) (h : T.Placed m) {c l pre : Nat}
    (hc : c % 4096 = 0) (hnew : T.level c = 0) : (T.insert c l pre).Placed (m.fill c defaultPageSize 0) := by
  intro g j k hg hj
  by_cases hgc : g = c
  · rw [hgc, entryAt_fill_self hj]
    intro hp
    cases hp
  · have hlevel : T.level g = k + 2 := (Function.update_of_ne hgc ..).symm.trans hg
    rw [entryAt_fill_of_ne hc (hwf.aligned g (by omega)) hgc hj]
    intro hp he
    have h1 := (hwf.child g j k hlevel hj hp he).1
    have hne : (entryAt m g j).pagePpn * 4096 ≠ c := by
      intro hcc
      rw [hcc] at h1
      omega
    show Function.update T.pre c pre _ = Function.update T.pre c pre g * 512 + j
    rw [Function.update_of_ne hne, Function.update_of_ne hgc]
    exact h g j k hlevel hj hp he

theorem Tables.le_insert {T : Tables} {c l pre : Nat} (hnew : T.level c = 0) : T.Le (T.insert c l pre) := by
  intro g hg
  have hne : g ≠ c := by
    rintro rfl
    exact hg hnew
  exact ⟨Function.update_of_ne hne .., Function.update_of_ne hne ..⟩

/-! ## Widened walks -/

/-- The entry with rights for user code or writes added, nothing else changed. -/
structure Entry.Widens (e e' : Entry) : Prop where
  user : e.userAccess = true → e'.userAccess = true
  write : e.writeable = true → e'.writeable = true
  other : ∀ j, j ≠ 1 → j ≠ 2 → e'.getLsbD j = e.getLsbD j

/-- The same leaf, reached through entries that allow at least as much. -/
inductive Walk.Widens : Option Walk → Option Walk → Prop
  | missing : Walk.Widens none none
  | found {w w' : Walk} : w'.leaf = w.leaf → w'.level = w.level → List.Forall₂ Entry.Widens w.upper w'.upper →
      Walk.Widens (some w) (some w')

namespace Entry.Widens

variable {e e' : Entry}

theorem refl (e : Entry) : e.Widens e := ⟨id, id, fun _ _ _ => rfl⟩

theorem field (h : e.Widens e') {lo n : Nat} (hlo : 3 ≤ lo) : e'.extractLsb' lo n = e.extractLsb' lo n := by
  apply BitVec.eq_of_getLsbD_eq
  intro j hj
  rw [BitVec.getLsbD_extractLsb', BitVec.getLsbD_extractLsb', h.other _ (by omega) (by omega)]

theorem present (h : e.Widens e') : e'.present = e.present := h.other 0 (by decide) (by decide)

theorem executionDisabled (h : e.Widens e') : e'.executionDisabled = e.executionDisabled :=
  h.other 63 (by decide) (by decide)

theorem frame (h : e.Widens e') : e'.frame = e.frame := by
  unfold Entry.frame
  rw [h.field (by decide)]

theorem pagePpn (h : e.Widens e') : e'.pagePpn = e.pagePpn := by
  unfold Entry.pagePpn
  rw [h.field (by decide)]

theorem reserved (h : e.Widens e') : e'.reserved = e.reserved := h.field (by decide)

end Entry.Widens

theorem applyUpperPerms_widens (p : Nat) (e : Entry) : e.Widens (applyUpperPerms p e) := by
  have hset : ∀ (e : Entry) (i : Nat), i = 1 ∨ i = 2 → e.Widens (setBit e i true) := by
    intro e i hi
    have hmono : ∀ j, e.getLsbD j = true → (setBit e i true).getLsbD j = true := by
      intro j hj
      by_cases hji : j = i
      · rw [hji, getLsbD_setBit e i true (by omega), if_pos rfl]
      · rw [getLsbD_setBit_of_ne e true hji, hj]
    exact ⟨hmono 2, hmono 1, fun j h1 h2 => getLsbD_setBit_of_ne e true (by omega)⟩
  have htrans : ∀ {a b c : Entry}, a.Widens b → b.Widens c → a.Widens c := fun h h' =>
    ⟨fun hu => h'.user (h.user hu), fun hw => h'.write (h.write hw),
      fun j h1 h2 => (h'.other j h1 h2).trans (h.other j h1 h2)⟩
  unfold applyUpperPerms Entry.setUserAccess Entry.setWriteable
  dsimp only
  split_ifs
  · exact htrans (hset e 2 (.inr rfl)) (hset _ 1 (.inl rfl))
  · exact hset e 1 (.inl rfl)
  · exact hset e 2 (.inr rfl)
  · exact .refl e

/-- The rights that were asked for are there. -/
theorem applyUpperPerms_user {p : Nat} (e : Entry) (h : permBit p userAccessShift = true) :
    (applyUpperPerms p e).userAccess = true := by
  unfold applyUpperPerms
  rw [if_pos h]
  have hset : (e.setUserAccess true).userAccess = true := getLsbD_setBit e 2 true (by decide)
  dsimp only
  split_ifs
  · exact (getLsbD_setBit_of_ne _ true (by decide)).trans hset
  · exact hset

theorem applyUpperPerms_write {p : Nat} (e : Entry) (h : permBit p writeableShift = true) :
    (applyUpperPerms p e).writeable = true := by
  unfold applyUpperPerms
  rw [if_pos h]
  exact getLsbD_setBit _ 1 true (by decide)

/-- The entry of a new table. -/
def tableEntry (permissions next : Nat) (e : Entry) : Entry :=
  applyUpperPerms permissions ((e.setPagePpn (next >>> 12)).setPresent true)

section
variable {p next : Nat} {e : Entry} (h : next % 4096 = 0) (hlow : next < 2 ^ 31)

theorem tableEntry_present : (tableEntry p next e).present = true := by
  unfold tableEntry
  rw [(applyUpperPerms_widens ..).present]
  exact getLsbD_setBit _ 0 true (by decide)

include h hlow in
theorem tableEntry_pagePpn : (tableEntry p next e).pagePpn * 4096 = next ∧ (tableEntry p next e).pagePpn < 2 ^ 19 := by
  have hppn : (tableEntry p next e).pagePpn = next / 4096 := by
    unfold tableEntry
    rw [(applyUpperPerms_widens ..).pagePpn, Nat.shiftRight_eq_div_pow]
    have hset : ((e.setPagePpn (next / 2 ^ 12)).setPresent true).pagePpn = (e.setPagePpn (next / 2 ^ 12)).pagePpn :=
      congrArg BitVec.toNat (extractLsb'_setBit _ true (.inl (by decide)))
    rw [hset, Entry.pagePpn_setPagePpn _ (by omega)]
    rfl
  rw [hppn]
  omega

theorem tableEntry_reserved (hr : e.reserved = 0) : (tableEntry p next e).reserved = 0 := by
  unfold tableEntry
  rw [(applyUpperPerms_widens ..).reserved]
  have hset : ((e.setPagePpn (next >>> 12)).setPresent true).reserved = (e.setPagePpn (next >>> 12)).reserved :=
    extractLsb'_setBit _ true (.inl (by decide))
  rw [hset, Entry.reserved_setPagePpn, hr]

theorem tableEntry_other {j : Nat} (hj : j = 7 ∨ j = 63) : (tableEntry p next e).getLsbD j = e.getLsbD j := by
  unfold tableEntry
  rw [(applyUpperPerms_widens ..).other j (by omega) (by omega)]
  rw [Entry.setPresent, getLsbD_setBit_of_ne _ true (by omega), Entry.getLsbD_setPagePpn_of_not _ _ (by omega)]

end

end Icarus.Memory
