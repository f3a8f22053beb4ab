/-
`page_out` (paging.c): it zeroes the entries on the way to a page, upper ones included, so that it takes the page out
and leaves the others alone only where no other page needs these words.
-/
import Icarus.Memory.TableWrites

namespace Icarus.Memory

open Icarus.Base

/-- `page_out`, which does not look for `huge` in entries that are present. -/
def pageOut (pml4 virtAddr : Nat) (m : Mem) : Int × Mem :=
  let pml4Index := vaPml4Index virtAddr
  let pml4Entry := entryAt m pml4 pml4Index
  if pml4Entry.present = false then (-1, m)
  else
    let pdptTable := pml4Entry.tableAddr
    let pdptIndex := vaPdptIndex virtAddr
    let pdptEntry := entryAt m pdptTable pdptIndex
    if pdptEntry.huge = true ∧ pdptEntry.present = false then
      (0, setEntry (setEntry m pml4 pml4Index 0) pdptTable pdptIndex 0)
    else if pdptEntry.present = false then (-2, m)
    else
      let pdTable := pdptEntry.tableAddr
      let pdIndex := vaPdIndex virtAddr
      let pdEntry := entryAt m pdTable pdIndex
      if pdEntry.huge = true ∧ pdEntry.present = false then
        (0, setEntry (setEntry (setEntry m pml4 pml4Index 0) pdptTable pdptIndex 0) pdTable pdIndex 0)
      else if pdEntry.present = false then (-3, m)
      else
        let ptTable := pdEntry.tableAddr
        let ptIndex := vaPtIndex virtAddr
        (0, setEntry (setEntry (setEntry (setEntry m pml4 pml4Index 0) pdptTable pdptIndex 0) pdTable pdIndex 0)
          ptTable ptIndex 0)

/-! ## Words -/

/-- Words of memory set to 0. -/
def zeroWords (m : Mem) (ws : List Nat) : Mem := ws.foldl (fun m a => m.store64 a 0) m

/-- The word that software takes for the entry of an address, `depth` levels below the PML4. -/
def entryWord (m : Mem) (pml4 va : Nat) : (depth : Nat) → Nat
  | 0 => pml4 + 8 * vaIndex va 3
  | depth + 1 => Entry.tableAddr (m.load64 (entryWord m pml4 va depth)) + 8 * vaIndex va (2 - depth)

/-- The entry in that word. -/
def entryOf (m : Mem) (pml4 va depth : Nat) : Entry := m.load64 (entryWord m pml4 va depth)

/-- The words that `page_out` zeroes when it returns 0. -/
def wordsOut (m : Mem) (pml4 va : Nat) : List Nat :=
  (List.range (if (entryOf m pml4 va 1).present = false then 2
    else if (entryOf m pml4 va 2).present = false then 3 else 4)).map
    (entryWord m pml4 va)

/-- An entry that is not present stops `page_out`, unless it is marked `huge`. -/
def GoesOn (e : Entry) : Prop := e.present = true ∨ e.huge = true

/-- `page_out` gets to its end. -/
def ReachesEnd (m : Mem) (pml4 va : Nat) : Prop :=
  GoesOn (entryOf m pml4 va 1) ∧ ((entryOf m pml4 va 1).present = true → GoesOn (entryOf m pml4 va 2))

/-- Once the PML4 entry is present, `page_out` zeroes its words or gives up. -/
theorem pageOut_eq {m : Mem} {pml4 va : Nat} (hp : (entryAt m pml4 (vaIndex va 3)).present = true) :
    ReachesEnd m pml4 va ∧ pageOut pml4 va m = (0, zeroWords m (wordsOut m pml4 va)) ∨
      ¬ReachesEnd m pml4 va ∧ (pageOut pml4 va m).1 ≠ 0 := by
  obtain ⟨h3, h2, h1, h0⟩ := vaIndex_macros va
  have hpdpt : entryAt m (entryAt m pml4 (vaIndex va 3)).tableAddr (vaIndex va 2) = entryOf m pml4 va 1 := rfl
  have hpd : entryAt m (entryOf m pml4 va 1).tableAddr (vaIndex va 1) = entryOf m pml4 va 2 := rfl
  unfold pageOut ReachesEnd wordsOut GoesOn
  rw [h3, h2, h1, h0]
  dsimp only
  rw [if_neg (by simp [hp]), hpdpt, hpd]
  cases hp1 : (entryOf m pml4 va 1).present with
  | false =>
    cases hh1 : (entryOf m pml4 va 1).huge <;>
      simp [zeroWords, List.range, List.range.loop, entryWord, setEntry, entryAt]
  | true =>
    cases hp2 : (entryOf m pml4 va 2).present with
    | false =>
      cases hh2 : (entryOf m pml4 va 2).huge <;>
        simp [zeroWords, List.range, List.range.loop, entryWord, setEntry, entryAt, entryOf]
    | true => simp [zeroWords, List.range, List.range.loop, entryWord, setEntry, entryAt, entryOf]

/-- The words the MMU reads on the walk of an address. -/
def walkWords (m : Mem) : (level table va : Nat) → List Nat
  | 0, _, _ => []
  | level + 1, table, va =>
    let e := entryAt m table (vaIndex va level)
    (table + 8 * vaIndex va level) ::
      if e.present = true ∧ ¬e.EndsWalk level then walkWords m level e.frame va else []

theorem load64_zeroWords {ws : List Nat} (hws : ∀ a ∈ ws, a % 8 = 0) {a : Nat} (ha : a % 8 = 0) (m : Mem) :
    (zeroWords m ws).load64 a = if a ∈ ws then 0 else m.load64 a := by
  induction ws generalizing m with
  | nil => rfl
  | cons b ws ih =>
    have hb := hws b List.mem_cons_self
    rw [zeroWords, List.foldl_cons, ← zeroWords, ih (fun c hc => hws c (List.mem_cons_of_mem _ hc))]
    by_cases hab : a = b
    · subst hab
      simp
    · rw [Mem.load64_store64_disjoint m (by omega)]
      simp [hab]

theorem Entry.frame_mod (e : Entry) : e.frame % 4096 = 0 := Nat.mul_mod_left ..

theorem Entry.tableAddr_mod (e : Entry) : e.tableAddr % 4096 = 0 := by
  unfold Entry.tableAddr u32
  dsimp only
  split_ifs <;> omega

/-- Zeroed words cut off the walks that read them, and leave the others as they are. -/
theorem mmuWalk_zeroWords {m : Mem} {ws : List Nat} (hws : ∀ a ∈ ws, a % 8 = 0) {l f va : Nat} (hf : f % 4096 = 0) :
    mmuWalk (zeroWords m ws) l f va = if ∃ a ∈ walkWords m l f va, a ∈ ws then none else mmuWalk m l f va := by
  induction l generalizing f with
  | zero => simp [mmuWalk]
  | succ l ih =>
    have hent : entryAt (zeroWords m ws) f (vaIndex va l) =
        if f + 8 * vaIndex va l ∈ ws then 0 else entryAt m f (vaIndex va l) := load64_zeroWords hws (by omega) m
    by_cases hin : f + 8 * vaIndex va l ∈ ws
    · rw [if_pos hin] at hent
      rw [mmuWalk_absent (by rw [hent]; rfl), if_pos ⟨_, List.mem_cons_self, hin⟩]
    · rw [if_neg hin] at hent
      unfold walkWords
      cases hp : (entryAt m f (vaIndex va l)).present with
      | false =>
        rw [mmuWalk_absent (by rwa [hent]), mmuWalk_absent hp, ite_self]
      | true =>
        by_cases he : (entryAt m f (vaIndex va l)).EndsWalk l
        · rw [mmuWalk_leaf (by rwa [hent]) (by rwa [hent]), mmuWalk_leaf hp he, hent]
          simp [he, hin]
        · rw [mmuWalk_table (by rwa [hent]) (by rwa [hent]), mmuWalk_table hp he, hent, ih (Entry.frame_mod _)]
          simp only [hp, he, not_false_eq_true, and_self, if_true, List.mem_cons, exists_eq_or_imp, hin, false_or]
          split_ifs <;> rfl

/-! ## Taking a page out -/

/-- What `page_out` should do for an address whose walk is `w`: the page is gone, and only that page. -/
structure RemovesPage (m : Mem) (pml4 va : Nat) (w : Walk) : Prop where
  returns : (pageOut pml4 va m).1 = 0
  gone : ∀ va', vaPrefix va' w.level = vaPrefix va w.level → translate (pageOut pml4 va m).2 pml4 va' = none
  others : ∀ va', vaPrefix va' w.level ≠ vaPrefix va w.level →
    translate (pageOut pml4 va m).2 pml4 va' = translate m pml4 va'

/-- The page is alone in its entry of the PML4, and what lies in the words further down, be they entries or data of a
large page, serves no other address. -/
structure Removable (m : Mem) (pml4 va : Nat) (w : Walk) : Prop where
  reachesEnd : ReachesEnd m pml4 va
  alone : ∀ va', vaIndex va' 3 = vaIndex va 3 → vaPrefix va' w.level ≠ vaPrefix va w.level → mmuWalk m 4 pml4 va' = none
  apart : ∀ va' w', vaIndex va' 3 ≠ vaIndex va 3 → mmuWalk m 4 pml4 va' = some w' →
    ∀ a ∈ walkWords m 4 pml4 va', a ∉ wordsOut m pml4 va

section
variable {m : Mem} {pml4 va : Nat} {w : Walk}

theorem wordsOut_aligned (hpml4 : pml4 % 4096 = 0) : ∀ a ∈ wordsOut m pml4 va, a % 8 = 0 := by
  intro a ha
  obtain ⟨d, -, rfl⟩ := List.mem_map.1 ha
  cases d with
  | zero =>
    unfold entryWord
    omega
  | succ d =>
    have := Entry.tableAddr_mod (m.load64 (entryWord m pml4 va d))
    unfold entryWord
    omega

/-- The entry of the PML4 is among them. -/
theorem pml4_word_out : pml4 + 8 * vaIndex va 3 ∈ wordsOut m pml4 va := by
  refine List.mem_map.2 ⟨0, List.mem_range.2 ?_, rfl⟩
  split_ifs <;> decide

/-- In any memory, so in any that calls of `page_in` built: `page_out` takes exactly one page out if and only if it
gets to its end and no other page needs the words it zeroes. -/
theorem page_out_removes_iff (hpml4 : pml4 % 4096 = 0) (hw : mmuWalk m 4 pml4 va = some w) :
    RemovesPage m pml4 va w ↔ Removable m pml4 va w := by
  have hp : (entryAt m pml4 (vaIndex va 3)).present = true := by
    by_contra habsent
    rw [mmuWalk_absent (by simpa using habsent)] at hw
    cases hw
  -- every walk through the slot of the root reads a word that is cleared
  have hslot : ∀ {va'}, vaIndex va' 3 = vaIndex va 3 → ∃ a ∈ walkWords m 4 pml4 va', a ∈ wordsOut m pml4 va := by
    intro va' hidx
    refine ⟨_, List.mem_cons_self, ?_⟩
    rw [hidx]
    exact pml4_word_out
  have hpage : ∀ {va'}, vaPrefix va' w.level = vaPrefix va w.level → vaIndex va' 3 = vaIndex va 3 := fun h =>
    vaIndex_congr h ((mmuWalk_level_le hw).trans (by decide)) le_rfl
  rcases pageOut_eq hp with ⟨hends, hout⟩ | ⟨hends, hret⟩
  · have hwalk : ∀ va', mmuWalk (pageOut pml4 va m).2 4 pml4 va' =
        if ∃ a ∈ walkWords m 4 pml4 va', a ∈ wordsOut m pml4 va then none else mmuWalk m 4 pml4 va' := by
      rw [hout]
      exact fun va' => mmuWalk_zeroWords (wordsOut_aligned hpml4) hpml4
    constructor
    · rintro ⟨-, -, hothers⟩
      -- an address whose walk is cut must have had none before
      have hcut : ∀ va', vaPrefix va' w.level ≠ vaPrefix va w.level →
          (∃ a ∈ walkWords m 4 pml4 va', a ∈ wordsOut m pml4 va) → mmuWalk m 4 pml4 va' = none := by
        intro va' hne hin
        have hsame := hothers va' hne
        unfold translate at hsame
        rw [hwalk, if_pos hin] at hsame
        exact Option.map_eq_none_iff.1 hsame.symm
      refine ⟨hends, fun va' hidx hne => hcut va' hne (hslot hidx), fun va' w' hidx hw' a ha hin => ?_⟩
      have hnone := hcut va' (fun h => hidx (hpage h)) ⟨a, ha, hin⟩
      rw [hw'] at hnone
      cases hnone
    · rintro ⟨-, halone, hapart⟩
      refine ⟨by rw [hout], fun va' h => ?_, fun va' hne => ?_⟩
      · unfold translate
        rw [hwalk, if_pos (hslot (hpage h))]
        rfl
      · unfold translate
        rw [hwalk]
        split_ifs with hin
        · by_cases hidx : vaIndex va' 3 = vaIndex va 3
          · rw [halone va' hidx hne]
          · rcases hw' : mmuWalk m 4 pml4 va' with _ | w'
            · rfl
            · obtain ⟨a, ha, hout'⟩ := hin
              exact absurd hout' (hapart va' w' hidx hw' a ha)
        · rfl
  · exact ⟨fun h => absurd h.returns hret, fun h => absurd h.reachesEnd hends⟩

/-- One page of 4 KiB in tables that were empty. -/
def singlePageMem : Mem :=
  (runCalls (bumpSource 0x8000 eightFrames_le).alloc 0 [⟨0, 0x5000, defaultPageSize, 2⟩] (fun _ => 0, 1)).1

/-- Two pages of 4 KiB, one behind the other. -/
def twoPagesMem : Mem :=
  (runCalls (bumpSource 0x8000 eightFrames_le).alloc 0
    [⟨0, 0x5000, defaultPageSize, 2⟩, ⟨0x1000, 0x6000, defaultPageSize, 2⟩] (fun _ => 0, 1)).1

theorem page_out_removes_iff_singlePage :
    ∃ w, mmuWalk singlePageMem 4 0 0 = some w ∧ RemovesPage singlePageMem 0 0 w := by
  obtain ⟨r, m', s', T', he, -, hnone⟩ := built_zeros.first (fun _ _ => entryAt_zero ..) 0 0x5000 2 defaultPageSize
  have hmem : singlePageMem = m' := by
    unfold singlePageMem
    simp only [runCalls, he]
  -- of all addresses only those of the page are mapped
  have hothers : ∀ va', vaPrefix va' 0 ≠ vaPrefix 0 0 → mmuWalk singlePageMem 4 0 va' = none := by
    intro va' hne
    rw [hmem]
    exact hnone va' hne
  have hlevel : (mmuWalk singlePageMem 4 0 0).map Walk.level = some 0 := by decide +kernel
  obtain ⟨w, hw, hw0⟩ := Option.map_eq_some_iff.1 hlevel
  refine ⟨w, hw, (page_out_removes_iff (by decide) hw).2 ⟨?_, fun va' _ hne => ?_, fun va' w' hidx hw' => ?_⟩⟩
  · refine ⟨.inl (by decide +kernel), fun _ => .inl (by decide +kernel)⟩
  · rw [hw0] at hne
    exact hothers va' hne
  · rw [hothers va' (fun h => hidx <| vaIndex_congr h (by decide) le_rfl)] at hw'
    cases hw'

/-- The page behind goes, too. -/
theorem page_out_removes_two : ∃ w, mmuWalk twoPagesMem 4 0 0 = some w ∧ w.level = 0 ∧
    translate twoPagesMem 0 0x1000 = some 0x6000 ∧ (pageOut 0 0 twoPagesMem).1 = 0 ∧
      translate (pageOut 0 0 twoPagesMem).2 0 0x1000 = none ∧ ¬RemovesPage twoPagesMem 0 0 w := by
  have hlevel : (mmuWalk twoPagesMem 4 0 0).map Walk.level = some 0 := by decide +kernel
  have hbefore : translate twoPagesMem 0 0x1000 = some 0x6000 := by decide +kernel
  have hafter : translate (pageOut 0 0 twoPagesMem).2 0 0x1000 = none := by decide +kernel
  obtain ⟨w, hw, hw0⟩ := Option.map_eq_some_iff.1 hlevel
  refine ⟨w, hw, hw0, hbefore, by decide +kernel, hafter, fun h => ?_⟩
  have hsame := h.others 0x1000 (by rw [hw0]; decide)
  rw [hbefore, hafter] at hsame
  cases hsame

end

end Icarus.Memory
