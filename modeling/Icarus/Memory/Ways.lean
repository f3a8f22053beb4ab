/-
The way of an address through the upper tables: whether it is clear of large pages, how many tables are
missing on it, and that these are the frames `page_in` asks the allocator for.
-/
import Icarus.Memory.Descent

namespace Icarus.Memory

open Icarus.Base

/-! ## The way of an address -/

/-- No entry on the way of `va` from the table `f` of `level + 1` is marked as the end of a walk above the
page table, be it present or not. -/
def Clear (m : Mem) (va : Nat) : (level f : Nat) → Prop
  | 0, _ => True
  | level + 1, f =>
    ¬(entryAt m f (vaIndex va (level + 1))).EndsWalk (level + 1) ∧
      ((entryAt m f (vaIndex va (level + 1))).present = true →
        Clear m va level (entryAt m f (vaIndex va (level + 1))).frame)

/-- The number of tables that are missing on the way of `va` from the table `f` of `level + 1`. -/
def missing (m : Mem) (va : Nat) : (level f : Nat) → Nat
  | 0, _ => 0
  | level + 1, f =>
    if (entryAt m f (vaIndex va (level + 1))).present = true then
      missing m va level (entryAt m f (vaIndex va (level + 1))).frame
    else level + 1

section
variable {m : Mem} {va l f : Nat}

theorem missing_present (h : (entryAt m f (vaIndex va (l + 1))).present = true) :
    missing m va (l + 1) f = missing m va l (entryAt m f (vaIndex va (l + 1))).frame := if_pos h

theorem missing_absent (h : (entryAt m f (vaIndex va (l + 1))).present = false) : missing m va (l + 1) f = l + 1 :=
  if_neg (by simp [h])

/-- An empty table misses everything below it. -/
theorem missing_zeroed (h : ∀ j, j < 512 → entryAt m f j = 0) : missing m va l f = l := by
  cases l with
  | zero => rfl
  | succ l =>
    refine missing_absent ?_
    rw [h _ (vaIndex_lt va _)]
    rfl

theorem clear_zeroed (h : ∀ j, j < 512 → entryAt m f j = 0) : Clear m va l f := by
  cases l with
  | zero => trivial
  | succ l =>
    unfold Clear
    rw [h _ (vaIndex_lt va _)]
    constructor
    · rintro (h0 | ⟨-, h0⟩)
      · omega
      · cases h0
    · intro h0
      cases h0

theorem Clear.noLarge (h : Clear m va l f) : NoLarge m (l + 1) f va := by
  induction l generalizing f with
  | zero =>
    intro w hw
    obtain ⟨-, ⟨-, rfl⟩ | ⟨he, -⟩⟩ := mmuWalk_cases hw
    · rfl
    · exact absurd (endsWalk_zero _) he
  | succ l ih =>
    intro w hw
    obtain ⟨hp, ⟨he, -⟩ | ⟨-, w', hw', rfl⟩⟩ := mmuWalk_cases hw
    · exact absurd he h.1
    · exact ih (h.2 hp) w' hw'

end

/-- Addresses that one page table serves. -/
def SamePt (va va' : Nat) : Prop := ∀ j, 1 ≤ j → j ≤ 3 → vaIndex va' j = vaIndex va j

section
variable {m : Mem} {va va' l f : Nat}

theorem SamePt.clear_iff (h : SamePt va va') (hl : l ≤ 3) : Clear m va' l f ↔ Clear m va l f := by
  induction l generalizing f with
  | zero => rfl
  | succ l ih =>
    unfold Clear
    rw [h (l + 1) (by omega) hl, ih (by omega)]

theorem SamePt.missing_eq (h : SamePt va va') (hl : l ≤ 3) : missing m va' l f = missing m va l f := by
  induction l generalizing f with
  | zero => rfl
  | succ l ih =>
    unfold missing
    rw [h (l + 1) (by omega) hl, ih (by omega)]

end

section
variable {T : Tables} {m m' : Mem} {va l f : Nat}

/-- From an entry that is the same the way goes on as it does below it. -/
theorem way_of_entry {c : Nat} (hent : entryAt m' c (vaIndex va (l + 1)) = entryAt m f (vaIndex va (l + 1)))
    (hclear : Clear m va (l + 1) f) (hbelow : (entryAt m f (vaIndex va (l + 1))).present = true →
      Clear m' va l (entryAt m f (vaIndex va (l + 1))).frame ∧
        missing m' va l (entryAt m f (vaIndex va (l + 1))).frame =
          missing m va l (entryAt m f (vaIndex va (l + 1))).frame) :
    Clear m' va (l + 1) c ∧ missing m' va (l + 1) c = missing m va (l + 1) f := by
  refine ⟨⟨?_, fun hp => ?_⟩, ?_⟩
  · rw [hent]
    exact hclear.1
  · rw [hent] at hp ⊢
    exact (hbelow hp).1
  · cases hp : (entryAt m f (vaIndex va (l + 1))).present with
    | false => rw [missing_absent hp, missing_absent (by rwa [hent])]
    | true => rw [missing_present hp, missing_present (by rwa [hent]), hent, (hbelow hp).2]

/-- The way depends on the upper tables from its own level down. -/
theorem way_congr (h : T.WF m)
    (hsame : ∀ g j, 2 ≤ T.level g → T.level g ≤ l + 1 → j < 512 → entryAt m' g j = entryAt m g j)
    (hf : T.level f = l + 1) (hclear : Clear m va l f) :
    Clear m' va l f ∧ missing m' va l f = missing m va l f := by
  induction l generalizing f with
  | zero => exact ⟨trivial, rfl⟩
  | succ l ih =>
    have hi := vaIndex_lt va (l + 1)
    refine way_of_entry (hsame f _ (by omega) (by omega) hi) hclear fun hp => ?_
    exact ih (fun g j h1 h2 => hsame g j h1 (by omega)) (h.child_frame hf hi hp hclear.1).1 (hclear.2 hp)

end

/-! ## Entering a table -/

section
variable {σ : Type} {src : FrameSource σ} {T T' : Tables} {m m' : Mem} {s s' : σ} {p va f i l c : Nat}

/-- A way stays clear. -/
theorem Entered.clear (h : Entered src p T m s f i l c T' m' s') (hwf : T.WF m) (hf : T.level f = l + 2) {k g : Nat}
    (hg : T.level g = k + 1) (hclear : Clear m va k g) : Clear m' va k g := by
  induction k generalizing g with
  | zero => trivial
  | succ k ih =>
    have hj := vaIndex_lt va (k + 1)
    by_cases hgf : g = f ∧ vaIndex va (k + 1) = i
    · obtain ⟨rfl, rfl⟩ := hgf
      obtain rfl : k = l := by omega
      have hends : ¬(entryAt m' g (vaIndex va (k + 1))).EndsWalk (k + 1) := by
        rintro (h0 | ⟨h1, h2⟩)
        · omega
        · exact hclear.1 (.inr ⟨h1, (h.bits 7 (.inl rfl)).symm.trans h2⟩)
      refine ⟨hends, fun _ => ?_⟩
      rcases h.grown with ⟨hp, hw, -⟩ | ⟨-, -, hzero, -⟩
      · rw [hw.frame]
        exact ih (hwf.child_frame hg hj hp hclear.1).1 (hclear.2 hp)
      · have hlevel := (h.le g (by omega)).1
        rw [Entry.frame_eq (h.wf.reserved g _ (by omega) hj), h.pagePpn]
        exact clear_zeroed hzero
    · have hent := h.other g (vaIndex va (k + 1)) (by omega) hj hgf
      refine ⟨?_, ?_⟩
      · rw [hent]
        exact hclear.1
      · rw [hent]
        intro hp
        exact ih (hwf.child_frame hg hj hp hclear.1).1 (hclear.2 hp)

/-- From the entered table on, the way is the same as before, or empty. -/
theorem Entered.missing_below (h : Entered src p T m s f (vaIndex va (l + 1)) l c T' m' s') (hwf : T.WF m)
    (hf : T.level f = l + 2) (hclear : Clear m va (l + 1) f) :
    missing m' va l c = if (entryAt m f (vaIndex va (l + 1))).present = true then missing m va (l + 1) f else l := by
  rcases h.grown with ⟨hp, hw, rfl, -⟩ | ⟨hp, -, hzero, -⟩
  · have hc : (entryAt m f (vaIndex va (l + 1))).frame = c := by
      rw [Entry.frame_eq (hwf.reserved f _ (by omega) (vaIndex_lt ..)), ← hw.pagePpn, h.pagePpn]
    rw [if_pos hp, missing_present hp, hc]
    refine (way_congr hwf ?_ h.level (hc ▸ hclear.2 hp)).2
    intro g j h1 h2 hj
    refine h.other g j (by omega) hj ?_
    rintro ⟨rfl, -⟩
    omega
  · rw [if_neg (by simp [hp])]
    exact missing_zeroed hzero

end

/-! ## The frames a descent takes -/

section
variable {σ : Type} {src : FrameSource σ} {T T' : Tables} {m m' : Mem} {s s' : σ} {p va f l : Nat} {r : Option Nat}

/-- A descent asks for the tables that are missing; it gets through exactly when all are there. -/
theorem Descends.takes (h : Descends src p va l f T m s r T' m' s') (hwf : T.WF m) (hs : T.Apart src s)
    (hf : T.level f = l + 1) (hclear : Clear m va l f) :
    (r.isSome = true ↔ src.Serves (missing m va l f) s) ∧ (r.isSome = true → s' = src.after (missing m va l f) s) := by
  induction h with
  | here => exact ⟨iff_of_true rfl trivial, fun _ => rfl⟩
  | failed hp ha =>
    rw [missing_absent hp]
    refine ⟨iff_of_false (by decide) fun hserves => hserves.1 ha, ?_⟩
    intro h0
    cases h0
  | @enter l f c T T₁ T' m m₁ m' s s₁ s' r hent hd ih =>
    have hi := vaIndex_lt va (l + 1)
    have hclear₁ : Clear m₁ va (l + 1) f := hent.clear hwf hf hf hclear
    have hframe : (entryAt m₁ f (vaIndex va (l + 1))).frame = c := by
      have hlevel := (hent.le f (by omega)).1
      rw [Entry.frame_eq (hent.wf.reserved f _ (by omega) hi), hent.pagePpn]
    obtain ⟨hiff, hafter⟩ := ih hent.wf hent.apart hent.level (hframe ▸ hclear₁.2 hent.present)
    have hbelow := hent.missing_below hwf hf hclear
    rcases hent.grown with ⟨hp, -, -, rfl⟩ | ⟨hp, -, -, ha, hin⟩
    · rw [if_pos hp] at hbelow
      rw [hbelow] at hiff hafter
      exact ⟨hiff, hafter⟩
    · rw [if_neg (by simp [hp])] at hbelow
      rw [hbelow] at hiff hafter
      have hne : (src.alloc s).1 ≠ frameAllocFailed := by
        have haligned := src.aligned s c hs.ok hin
        rw [ha]
        rintro rfl
        exact absurd haligned (by decide)
      have hnext : (src.alloc s).2 = s₁ := by rw [ha]
      rw [missing_absent hp]
      refine ⟨hiff.trans ?_, fun hr => ?_⟩
      · show _ ↔ (src.alloc s).1 ≠ frameAllocFailed ∧ src.Serves l (src.alloc s).2
        rw [hnext]
        exact (and_iff_right hne).symm
      · rw [hafter hr, FrameSource.after, hnext]

/-- Whatever happens, the allocator is called some number of times. -/
theorem Descends.calls (h : Descends src p va l f T m s r T' m' s') : ∃ n, s' = src.after n s := by
  induction h with
  | here => exact ⟨0, rfl⟩
  | failed => exact ⟨1, rfl⟩
  | enter hent _ ih =>
    obtain ⟨n, rfl⟩ := ih
    rcases hent.grown with ⟨-, -, -, rfl⟩ | ⟨-, -, -, ha, -⟩
    · exact ⟨n, rfl⟩
    · exact ⟨n + 1, by rw [FrameSource.after, ha]⟩

/-- A way stays clear. -/
theorem Descends.clear (h : Descends src p va l f T m s r T' m' s') (hwf : T.WF m) (hf : T.level f = l + 1)
    {va' k g : Nat} (hg : T.level g = k + 1) (hclear : Clear m va' k g) : Clear m' va' k g := by
  induction h with
  | here => exact hclear
  | failed => exact hclear
  | enter hent _ ih =>
    exact ih hent.wf hent.level ((hent.le g (by omega)).1.trans hg) (hent.clear hwf hf hg hclear)

/-- After a descent that got through nothing is missing on its way. -/
theorem Descends.complete {c : Nat} (h : Descends src p va l f T m s (some c) T' m' s') (hf : T.level f = l + 1) :
    missing m' va l f = 0 := by
  generalize hr : some c = r at h
  induction h with
  | here => rfl
  | failed => cases hr
  | @enter l f c₁ T T₁ T' m m₁ m' s s₁ s' r hent hd ih =>
    have hi := vaIndex_lt va (l + 1)
    have hlevel := (hent.le f (by omega)).1
    have hsame : entryAt m' f (vaIndex va (l + 1)) = entryAt m₁ f (vaIndex va (l + 1)) :=
      hd.outer hent.level (by omega) (by omega) hi
    have hframe : (entryAt m' f (vaIndex va (l + 1))).frame = c₁ := by
      rw [hsame, Entry.frame_eq (hent.wf.reserved f _ (by omega) hi), hent.pagePpn]
    rw [missing_present (by rw [hsame, hent.present]), hframe]
    exact ih hent.level hr

end

section
variable {σ : Type} {src : FrameSource σ} {T T' : Tables} {m m' : Mem} {s s' : σ} {pml4 va pa p : Nat} {r : Int}

/-- The entry of a page is on no way. -/
theorem way_setLeaf (hwf : T.WF m) {c i : Nat} {e : Entry} (hc : T.level c = 1) (hi : i < 512) {l f : Nat}
    (hf : T.level f = l + 1) (hclear : Clear m va l f) :
    Clear (setEntry m c i e) va l f ∧ missing (setEntry m c i e) va l f = missing m va l f :=
  way_congr hwf (fun _ _ h1 _ hj => setLeaf_of_ne hwf hc hi h1 hj) hf hclear

theorem PagedIn.clear (h : PagedIn src pml4 va pa p T m s r T' m' s') (hwf : T.WF m) (hroot : T.level pml4 = 4)
    {va' k g : Nat} (hg : T.level g = k + 1) (hclear : Clear m va' k g) : Clear m' va' k g := by
  cases h with
  | failed hd => exact hd.clear hwf hroot hg hclear
  | mapped hd =>
    have hg' := (hd.le g (by omega)).1.trans hg
    exact (way_setLeaf (hd.wf hwf) (hd.reached hroot) (vaIndex_lt ..) hg' (hd.clear hwf hroot hg hclear)).1

/-- `page_in` succeeds exactly when the allocator has the tables that are missing; they are not missing any
more then. -/
theorem PagedIn.takes (h : PagedIn src pml4 va pa p T m s r T' m' s') (hwf : T.WF m) (hs : T.Apart src s)
    (hroot : T.level pml4 = 4) (hclear : Clear m va 3 pml4) :
    (r = 0 ∨ r = -1) ∧ (r = 0 ↔ src.Serves (missing m va 3 pml4) s) ∧
      (r = 0 → s' = src.after (missing m va 3 pml4) s ∧ missing m' va 3 pml4 = 0) := by
  cases h with
  | failed hd =>
    obtain ⟨hiff, -⟩ := hd.takes hwf hs hroot hclear
    refine ⟨.inr rfl, iff_of_false (by decide) fun hserves => ?_, fun h0 => ?_⟩
    · cases hiff.2 hserves
    · cases h0
  | mapped hd =>
    obtain ⟨hiff, hafter⟩ := hd.takes hwf hs hroot hclear
    have hroot' := (hd.le pml4 (by omega)).1.trans hroot
    refine ⟨.inl rfl, iff_of_true rfl (hiff.1 rfl), fun _ => ⟨hafter rfl, ?_⟩⟩
    rw [(way_setLeaf (hd.wf hwf) (hd.reached hroot) (vaIndex_lt ..) hroot' (hd.clear hwf hroot hroot hclear)).2]
    exact hd.complete hroot

end

/-! ## Ways in other slots -/

section
variable {σ : Type} {src : FrameSource σ} {T T' : Tables} {m m' : Mem} {s s' : σ} {p va va' l f c : Nat}

/-- Where tables hang in one place, entering one is nothing to the ways in other slots. -/
theorem Entered.missing_other (h : Entered src p T m s f (vaIndex va (l + 1)) l c T' m' s') (hwf : T.WF m)
    (hpl : T.Placed m) (hf : T.level f = l + 2) (hl : l ≤ 2) (hpre : T.pre f = vaPrefix va (l + 2))
    (hslot : vaIndex va' 3 ≠ vaIndex va 3) {k g : Nat} (hg : T.level g = k + 1) (hk : k ≤ 3)
    (hgpre : T.pre g = vaPrefix va' (k + 1)) (hclear : Clear m va' k g) : missing m' va' k g = missing m va' k g := by
  induction k generalizing g with
  | zero => rfl
  | succ k ih =>
    have hj := vaIndex_lt va' (k + 1)
    have hprefix := vaPrefix_succ va' hk
    have hother : ¬(g = f ∧ vaIndex va' (k + 1) = vaIndex va (l + 1)) := by
      rintro ⟨rfl, hidx⟩
      obtain rfl : k = l := by omega
      -- a page table, or one above it, serves one slot of the root
      refine hslot (vaIndex_congr ?_ hk le_rfl)
      rw [vaPrefix_succ va' hk, vaPrefix_succ va hk, hidx, ← hgpre, ← hpre]
    have hent := h.other g _ (by omega) hj hother
    cases hp : (entryAt m g (vaIndex va' (k + 1))).present with
    | false => rw [missing_absent hp, missing_absent (by rwa [hent])]
    | true =>
      obtain ⟨hlevel, hchild⟩ := hwf.child_frame hg hj hp hclear.1
      rw [missing_present hp, missing_present (by rwa [hent]), hent]
      refine ih hlevel (by omega) ?_ (hclear.2 hp)
      rw [hchild hpl, hgpre, ← hprefix]

theorem Descends.missing_other {r : Option Nat} (h : Descends src p va l f T m s r T' m' s') (hwf : T.WF m)
    (hpl : T.Placed m) (hf : T.level f = l + 1) (hl : l ≤ 3) (hpre : T.pre f = vaPrefix va (l + 1))
    (hslot : vaIndex va' 3 ≠ vaIndex va 3) {k g : Nat} (hg : T.level g = k + 1) (hk : k ≤ 3)
    (hgpre : T.pre g = vaPrefix va' (k + 1)) (hclear : Clear m va' k g) : missing m' va' k g = missing m va' k g := by
  induction h with
  | here => rfl
  | failed => rfl
  | enter hent _ ih =>
    obtain ⟨hlevel, hpre'⟩ := hent.le g (by omega)
    obtain ⟨hpl₁, hcpre⟩ := hent.placed hpl
    have hstep := hent.missing_other hwf hpl hf (by omega) hpre hslot hg hk hgpre hclear
    rw [← hstep]
    refine ih hent.wf hpl₁ hent.level (by omega) ?_ (hlevel.trans hg) (hpre'.trans hgpre) (hent.clear hwf hf hg hclear)
    rw [hcpre, hpre, ← vaPrefix_succ va (by omega)]

theorem PagedIn.missing_other {pml4 pa : Nat} {r : Int} (h : PagedIn src pml4 va pa p T m s r T' m' s') (hwf : T.WF m)
    (hpl : T.Placed m) (hroot : T.level pml4 = 4) (hpre : T.pre pml4 = 0) (hslot : vaIndex va' 3 ≠ vaIndex va 3)
    (hclear : Clear m va' 3 pml4) : missing m' va' 3 pml4 = missing m va' 3 pml4 := by
  have hpre' : ∀ va, T.pre pml4 = vaPrefix va 4 := fun va => by rw [hpre, vaPrefix_four]
  cases h with
  | failed hd => exact hd.missing_other hwf hpl hroot le_rfl (hpre' va) hslot hroot le_rfl (hpre' va') hclear
  | mapped hd =>
    have hroot' := (hd.le pml4 (by omega)).1.trans hroot
    rw [(way_setLeaf (hd.wf hwf) (hd.reached hroot) (vaIndex_lt ..) hroot' (hd.clear hwf hroot hroot hclear)).2]
    exact hd.missing_other hwf hpl hroot le_rfl (hpre' va) hslot hroot le_rfl (hpre' va') hclear

end

end Icarus.Memory
