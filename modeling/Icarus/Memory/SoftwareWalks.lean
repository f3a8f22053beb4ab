/-
The two walks in software (paging.c): what `walk_table` and `test_walk_table` return for an address next to what
the MMU makes of it.
-/
import Icarus.Memory.LargePages

namespace Icarus.Memory

open Icarus.Base

/-- `INVALID_PHYS_ADDR`. -/
def invalidPhysAddr : Nat := 2 ^ 64 - 1

/-- `walk_table`. -/
def walkTable (m : Mem) (pml4 virtAddr : Nat) : Nat :=
  let pml4Entry := entryAt m pml4 (vaPml4Index virtAddr)
  if pml4Entry.present = false then invalidPhysAddr
  else
    let pdptEntry := entryAt m pml4Entry.tableAddr (vaPdptIndex virtAddr)
    if pdptEntry.present = false then invalidPhysAddr
    else if pdptEntry.huge = true then pdptEntry.tableAddr
    else
      let pdEntry := entryAt m pdptEntry.tableAddr (vaPdIndex virtAddr)
      if pdEntry.present = false then invalidPhysAddr
      else if pdEntry.huge = true then pdEntry.tableAddr
      else
        let ptEntry := entryAt m pdEntry.tableAddr (vaPtIndex virtAddr)
        if ptEntry.present = false then invalidPhysAddr else ptEntry.tableAddr

/-- `test_walk_table`, without what it prints: `huge` of the second level is not looked at. -/
def testWalkTable (m : Mem) (pml4 virtAddr : Nat) : Nat :=
  let pml4Entry := entryAt m pml4 (vaPml4Index virtAddr)
  if pml4Entry.present = false then invalidPhysAddr
  else
    let pdptEntry := entryAt m pml4Entry.tableAddr (vaPdptIndex virtAddr)
    if pdptEntry.present = false then invalidPhysAddr
    else
      let pdEntry := entryAt m pdptEntry.tableAddr (vaPdIndex virtAddr)
      if pdEntry.huge = true ∧ pdEntry.present = true then pdEntry.tableAddr
      else if pdEntry.present = false then invalidPhysAddr
      else
        let ptEntry := entryAt m pdEntry.tableAddr (vaPtIndex virtAddr)
        if ptEntry.present = false then invalidPhysAddr else ptEntry.tableAddr

/-! ## Walks of any depth -/

/-- The walk in software from a table of level `l` on. -/
def tableWalk (m : Mem) : (l table va : Nat) → Nat
  | 0, table, _ => table
  | l + 1, table, va =>
    let e := entryAt m table (vaIndex va l)
    if e.present = false then invalidPhysAddr
    else if e.EndsWalk l then e.tableAddr
    else tableWalk m l e.tableAddr va

section
variable {m : Mem} {pml4 l f va : Nat}

theorem tableWalk_absent (h : (entryAt m f (vaIndex va l)).present = false) :
    tableWalk m (l + 1) f va = invalidPhysAddr := if_pos h

theorem tableWalk_leaf (h : (entryAt m f (vaIndex va l)).present = true)
    (he : (entryAt m f (vaIndex va l)).EndsWalk l) :
    tableWalk m (l + 1) f va = (entryAt m f (vaIndex va l)).tableAddr := by
  rw [tableWalk, if_neg (by simp [h]), if_pos he]

theorem tableWalk_table (h : (entryAt m f (vaIndex va l)).present = true)
    (he : ¬(entryAt m f (vaIndex va l)).EndsWalk l) :
    tableWalk m (l + 1) f va = tableWalk m l (entryAt m f (vaIndex va l)).tableAddr va := by
  rw [tableWalk, if_neg (by simp [h]), if_neg he]

theorem endsWalk_three (e : Entry) : ¬e.EndsWalk 3 := by
  rintro (h | ⟨h, -⟩)
  · cases h
  · omega

theorem endsWalk_middle {e : Entry} {l : Nat} (h1 : 1 ≤ l) (h2 : l ≤ 2) : e.EndsWalk l ↔ e.huge = true := by
  constructor
  · rintro (h | ⟨-, h⟩)
    · omega
    · exact h
  · intro h
    exact .inr ⟨h2, h⟩

theorem walkTable_eq : walkTable m pml4 va = tableWalk m 4 pml4 va := by
  obtain ⟨h3, h2, h1, h0⟩ := vaIndex_macros va
  unfold walkTable
  rw [h3, h2, h1, h0]
  simp only [tableWalk, endsWalk_three, endsWalk_zero, endsWalk_middle (le_refl 1) one_le_two,
    endsWalk_middle one_le_two (le_refl 2), if_false, if_true]

/-- `test_walk_table` goes on to a third table in any case. -/
theorem testWalkTable_eq : testWalkTable m pml4 va =
    if (entryAt m pml4 (vaIndex va 3)).present = false then invalidPhysAddr
    else if (entryAt m (entryAt m pml4 (vaIndex va 3)).tableAddr (vaIndex va 2)).present = false then invalidPhysAddr
    else tableWalk m 2 (entryAt m (entryAt m pml4 (vaIndex va 3)).tableAddr (vaIndex va 2)).tableAddr va := by
  obtain ⟨h3, h2, h1, h0⟩ := vaIndex_macros va
  unfold testWalkTable
  rw [h3, h2, h1, h0]
  simp only [tableWalk, endsWalk_zero, endsWalk_middle (le_refl 1) one_le_two, if_true]
  split_ifs <;> simp_all

end

/-! ## Next to the MMU -/

section
variable {T : Tables} {m : Mem} {pml4 l f va : Nat}

theorem Tables.WF.tableAddr_eq (h : T.WF m) {i : Nat} (hf : T.level f = l + 2) (hi : i < 512)
    (hp : (entryAt m f i).present = true) (he : ¬(entryAt m f i).EndsWalk (l + 1)) :
    (entryAt m f i).tableAddr = (entryAt m f i).frame ∧ T.level (entryAt m f i).tableAddr = l + 1 := by
  obtain ⟨hlevel, hppn⟩ := h.child f i l hf hi hp he
  rw [Entry.tableAddr_eq hppn, Entry.frame_eq (h.reserved f i (by omega) hi)]
  exact ⟨rfl, hlevel⟩

/-- Through tables below 2 GiB the walk in software finds the entry the MMU finds. -/
theorem tableWalk_eq (h : T.WF m) (hf : T.level f = l) (hl : l ≠ 0) :
    tableWalk m l f va = (mmuWalk m l f va).elim invalidPhysAddr fun w => w.leaf.tableAddr := by
  induction l generalizing f with
  | zero => exact absurd rfl hl
  | succ l ih =>
    have hi := vaIndex_lt va l
    cases hp : (entryAt m f (vaIndex va l)).present with
    | false =>
      rw [tableWalk_absent hp, mmuWalk_absent hp]
      rfl
    | true =>
      by_cases he : (entryAt m f (vaIndex va l)).EndsWalk l
      · rw [tableWalk_leaf hp he, mmuWalk_leaf hp he]
        rfl
      · rcases l with _ | l
        · exact absurd (endsWalk_zero _) he
        · obtain ⟨haddr, hlevel⟩ := h.tableAddr_eq hf hi hp he
          rw [tableWalk_table hp he, mmuWalk_table hp he, ih hlevel (Nat.succ_ne_zero l), haddr, Option.elim_map]
          rfl

/-- Where the walk ends in a page of 1 GiB, `test_walk_table` takes the page for a table. -/
theorem testWalkTable_eq_of_walk (h : T.WF m) (hroot : T.level pml4 = 4) :
    testWalkTable m pml4 va = (mmuWalk m 4 pml4 va).elim invalidPhysAddr fun w =>
      if w.level = 2 then tableWalk m 2 w.leaf.tableAddr va else w.leaf.tableAddr := by
  rw [testWalkTable_eq]
  cases hp3 : (entryAt m pml4 (vaIndex va 3)).present with
  | false =>
    rw [mmuWalk_absent hp3]
    rfl
  | true =>
    obtain ⟨haddr3, hlevel3⟩ := h.tableAddr_eq hroot (vaIndex_lt va 3) hp3 (endsWalk_three _)
    rw [mmuWalk_table hp3 (endsWalk_three _), ← haddr3]
    generalize (entryAt m pml4 (vaIndex va 3)).tableAddr = t at hlevel3 ⊢
    cases hp2 : (entryAt m t (vaIndex va 2)).present with
    | false =>
      rw [mmuWalk_absent hp2]
      rfl
    | true =>
      by_cases he2 : (entryAt m t (vaIndex va 2)).EndsWalk 2
      · rw [mmuWalk_leaf hp2 he2]
        rfl
      · obtain ⟨haddr2, hlevel2⟩ := h.tableAddr_eq hlevel3 (vaIndex_lt va 2) hp2 he2
        rw [mmuWalk_table hp2 he2, tableWalk_eq h hlevel2 (by decide), ← haddr2]
        rcases hw : mmuWalk m 2 (entryAt m t (vaIndex va 2)).tableAddr va with _ | w
        · rfl
        · have hlevel := (mmuWalk_ends hw).1
          show w.leaf.tableAddr = if w.level = 2 then _ else w.leaf.tableAddr
          rw [if_neg (by omega)]

/-- The entry that ends a walk is an entry of a table. -/
theorem Tables.WF.leaf_reserved (h : T.WF m) (hf : T.level f = l) {w : Walk} (hw : mmuWalk m l f va = some w) :
    w.leaf.reserved = 0 := by
  induction l generalizing f w with
  | zero => cases hw
  | succ l ih =>
    have hi := vaIndex_lt va l
    obtain ⟨hp, ⟨-, rfl⟩ | ⟨he, w', hw', rfl⟩⟩ := mmuWalk_cases hw
    · exact h.reserved f _ (by omega) hi
    · exact ih (w := w') (h.child_frame hf hi hp he).1 hw'

end

/-! ## Agreement -/

/-- What the walks should return: the 4 KiB frame of the address, and `INVALID_PHYS_ADDR` where there is none. -/
structure WalksAgree (m : Mem) (pml4 va : Nat) : Prop where
  same : walkTable m pml4 va = testWalkTable m pml4 va
  frame : ∀ f, translate m pml4 va = some f → walkTable m pml4 va = f
  invalid : walkTable m pml4 va = invalidPhysAddr ↔ translate m pml4 va = none

/-- The page of the walk lies below 2 GiB, and of its frames the address lies in the one the entry names, which is the
first one in an aligned page. -/
def Walk.NamesFrame (w : Walk) (va : Nat) : Prop :=
  w.leaf.pagePpn < 2 ^ 19 ∧ w.leaf.pagePpn % 512 ^ w.level = va % 2 ^ (12 + 9 * w.level) / 4096

/-- Read as a page directory, the data in the page of the walk leads to the frame. -/
def Walk.DataLeads (m : Mem) (w : Walk) (va : Nat) : Prop :=
  let e := entryAt m w.leaf.tableAddr (vaIndex va 1)
  e.present = true ∧
    if e.huge = true then e.tableAddr = w.frame va
    else (entryAt m e.tableAddr (vaIndex va 0)).present = true ∧
      (entryAt m e.tableAddr (vaIndex va 0)).tableAddr = w.frame va

section
variable {m : Mem} {w : Walk} {va : Nat}

theorem Walk.frame_lt (va : Nat) (hl : w.level ≤ 2) (hr : w.leaf.reserved = 0) : w.frame va < 2 ^ 40 := by
  have hppn : w.leaf.pagePpn < 2 ^ 28 := (w.leaf.extractLsb' 12 28).isLt
  unfold Walk.frame
  rw [Entry.frame_eq hr]
  generalize w.leaf.pagePpn = ppn at hppn ⊢
  generalize w.level = l at hl ⊢
  interval_cases l <;> omega

theorem Walk.namesFrame_iff (hl : w.level ≤ 2) (hr : w.leaf.reserved = 0) :
    w.leaf.tableAddr = w.frame va ↔ w.NamesFrame va := by
  have hppn : w.leaf.pagePpn < 2 ^ 28 := (w.leaf.extractLsb' 12 28).isLt
  unfold Walk.NamesFrame Walk.frame Entry.tableAddr u32
  rw [Entry.frame_eq hr]
  generalize w.leaf.pagePpn = ppn at hppn ⊢
  generalize w.level = l at hl ⊢
  dsimp only
  interval_cases l <;> split_ifs <;> omega

theorem Walk.dataLeads_iff (hl : w.level ≤ 2) (hr : w.leaf.reserved = 0) :
    tableWalk m 2 w.leaf.tableAddr va = w.frame va ↔ w.DataLeads m va := by
  have hne : invalidPhysAddr ≠ w.frame va := by
    have hlt := w.frame_lt va hl hr
    unfold invalidPhysAddr
    omega
  unfold Walk.DataLeads
  simp only [tableWalk, endsWalk_zero, endsWalk_middle (le_refl 1) one_le_two, if_true]
  generalize entryAt m w.leaf.tableAddr (vaIndex va 1) = e
  generalize entryAt m e.tableAddr (vaIndex va 0) = e'
  cases e.present <;> cases e.huge <;> cases e'.present <;> simp [hne]

end

/-- The walks agree with the MMU exactly where the address is not mapped, or is mapped to a frame below 2 GiB that the
entry of its page names, and, in a page of 1 GiB, the data there leads a third walk to the same frame. -/
theorem walks_agree_iff {T : Tables} {m : Mem} {pml4 : Nat} (hwf : T.WF m) (hroot : T.level pml4 = 4) (va : Nat) :
    WalksAgree m pml4 va ↔
      ∀ w, mmuWalk m 4 pml4 va = some w → w.NamesFrame va ∧ (w.level = 2 → w.DataLeads m va) := by
  have hwalk : tableWalk m 4 pml4 va = _ := tableWalk_eq hwf hroot (by decide)
  have htest : testWalkTable m pml4 va = _ := testWalkTable_eq_of_walk hwf hroot
  rw [← walkTable_eq] at hwalk
  rcases hw : mmuWalk m 4 pml4 va with _ | w
  · -- where nothing is mapped neither walk finds anything
    rw [hw] at hwalk htest
    have hnone : translate m pml4 va = none := by
      unfold translate
      rw [hw]
      rfl
    constructor
    · intro _ w hsome
      cases hsome
    · intro _
      refine ⟨hwalk.trans htest.symm, fun f hf => ?_, fun _ => hnone, fun _ => hwalk⟩
      rw [hnone] at hf
      cases hf
  · rw [hw] at hwalk htest
    simp only [Option.elim_some] at hwalk htest
    have hl := mmuWalk_level_le hw
    have hr := hwf.leaf_reserved hroot hw
    have hsome : translate m pml4 va = some (w.frame va) := by
      unfold translate
      rw [hw]
      rfl
    constructor
    · rintro ⟨hsame, hframe, -⟩ w' hw'
      cases hw'
      have hnames := hframe _ hsome
      rw [hwalk] at hnames hsame
      refine ⟨(w.namesFrame_iff hl hr).1 hnames, fun h2 => (w.dataLeads_iff hl hr).1 ?_⟩
      rw [if_pos h2] at htest
      rw [← htest, ← hsame, hnames]
    · intro h
      obtain ⟨hnames, hdata⟩ := h w rfl
      rw [← w.namesFrame_iff hl hr] at hnames
      rw [hnames] at hwalk
      refine ⟨?_, fun f hf => ?_, fun hinv => ?_, fun hnone => ?_⟩
      · rw [hwalk, htest]
        split_ifs with h2
        · exact ((w.dataLeads_iff hl hr).2 (hdata h2)).symm
        · exact hnames.symm
      · rw [hsome] at hf
        cases hf
        exact hwalk
      · have hlt := w.frame_lt va hl hr
        rw [hwalk] at hinv
        unfold invalidPhysAddr at hinv
        omega
      · rw [hsome] at hnone
        cases hnone

/-- The tables in which one page of 2 MiB is mapped, from 0 to 0x200000. -/
def hugePageMem : Mem := (pageIn (bumpSource 0x8000 (by decide)).alloc 0 0 0x200000 hugePs 2 (fun _ => 0) 1).2.1

theorem hugePageMem_built : ∃ T s, Built (bumpSource 0x8000 (by decide)) 0 T hugePageMem s := by
  obtain ⟨r, m', s', T', he, hbuilt, -⟩ := built_zeros.first (fun _ _ => entryAt_zero ..) 0 0x200000 2 hugePs
  have hm : hugePageMem = m' := by
    unfold hugePageMem
    rw [he]
  rw [hm]
  exact ⟨T', s', hbuilt⟩

/-- In the first frame of the page all is well. -/
theorem walks_agree_iff_hugePage : WalksAgree hugePageMem 0 0 := by
  obtain ⟨T, s, hT⟩ := hugePageMem_built
  have hwalk : (mmuWalk hugePageMem 4 0 0).map (fun w => (w.leaf.pagePpn, w.level)) = some (512, 1) := by decide +kernel
  refine (walks_agree_iff hT.wf hT.root 0).2 fun w hw => ?_
  rw [hw, Option.map_some, Option.some.injEq, Prod.mk.injEq] at hwalk
  unfold Walk.NamesFrame
  rw [hwalk.1, hwalk.2]
  exact ⟨by decide, fun h => absurd h (by decide)⟩

/-- In the second one both walks in software return the first. -/
theorem huge_page_walks_differ : (∃ T : Tables, T.WF hugePageMem ∧ T.level 0 = 4) ∧
    translate hugePageMem 0 0x1000 = some 0x201000 ∧ walkTable hugePageMem 0 0x1000 = 0x200000 ∧
      testWalkTable hugePageMem 0 0x1000 = 0x200000 ∧ ¬WalksAgree hugePageMem 0 0x1000 := by
  have hmmu : translate hugePageMem 0 0x1000 = some 0x201000 := by decide +kernel
  have hsoft : walkTable hugePageMem 0 0x1000 = 0x200000 := by decide +kernel
  obtain ⟨T, s, hT⟩ := hugePageMem_built
  refine ⟨⟨T, hT.wf, hT.root⟩, hmmu, hsoft, by decide +kernel, fun h => ?_⟩
  have hframe := h.frame _ hmmu
  rw [hsoft] at hframe
  omega

end Icarus.Memory
