/-
`page_in` for pages of all three sizes: the descent ends at the level that maps pages of the size asked for,
provided that no larger page already maps the address, and the walks change for the page alone.
-/
import Icarus.Memory.Descent

namespace Icarus.Memory

open Icarus.Base

/-! ## Levels and leaves -/

/-- The level whose entries map pages of the size; `page_in` takes any other size for 4 KiB. -/
def leafLevel (pageSize : Nat) : Nat := if pageSize = superPs then 2 else if pageSize = hugePs then 1 else 0

theorem leafLevel_le (pageSize : Nat) : leafLevel pageSize ≤ 2 := by
  unfold leafLevel
  split_ifs <;> decide

/-- The entry that `page_in` makes of `e` for a page mapped at `stop`. -/
def leafEntry (stop permissions physAddr : Nat) (e : Entry) : Entry :=
  if stop = 0 then defaultLeaf permissions physAddr e else largeLeaf permissions physAddr e

section
variable {p pa stop : Nat} {e : Entry}

theorem leafEntry_present : (leafEntry stop p pa e).present = true := by
  unfold leafEntry
  split_ifs <;> exact getLsbD_setBit _ 0 true (by decide)

/-- The walk ends there. -/
theorem leafEntry_ends (hstop : stop ≤ 2) : (leafEntry stop p pa e).EndsWalk stop := by
  unfold leafEntry
  split_ifs with h0
  · exact .inl h0
  · refine .inr ⟨hstop, ?_⟩
    unfold largeLeaf Entry.huge Entry.setPresent Entry.setHuge
    simp (disch := omega) only [getLsbD_setBit_of_ne, getLsbD_setBit, Entry.getLsbD_setPagePpn_of_not, reduceIte]

theorem leafEntry_reserved (he : e.reserved = 0) : (leafEntry stop p pa e).reserved = 0 := by
  unfold leafEntry
  split_ifs
  · exact defaultLeaf_reserved he
  · rw [← he]
    apply BitVec.eq_of_getLsbD_eq
    intro j hj
    simp (disch := omega) only [largeLeaf, applyLeafPerms, Entry.setPresent, Entry.setHuge,
      Entry.setExecutionDisabled, Entry.setCacheDisabled, Entry.setWriteThrough, Entry.setWriteable,
      Entry.setUserAccess, Entry.reserved, BitVec.getLsbD_extractLsb', getLsbD_setBit_of_ne,
      Entry.getLsbD_setPagePpn_of_not]

theorem leafEntry_pagePpn : (leafEntry stop p pa e).pagePpn = pa / 4096 % 2 ^ 28 := by
  unfold leafEntry Entry.pagePpn
  split_ifs
  all_goals
    simp (disch := omega) only [defaultLeaf, largeLeaf, Entry.setPresent, extractLsb'_setBit,
      Entry.extractLsb'_setPagePpn, BitVec.toNat_ofNat, Nat.shiftRight_eq_div_pow]

end

section
variable {σ : Type} (alloc : σ → Nat × σ)

/-- `n` upper levels of `page_in` from the table at `table` down to one whose entries have level `stop`. -/
def descendTo (permissions virtAddr stop : Nat) : (n table : Nat) → Mem → σ → Option Nat × Mem × σ
  | 0, table, m, s => (some table, m, s)
  | n + 1, table, m, s =>
    match enterTable alloc permissions table (vaIndex virtAddr (stop + n + 1)) m s with
    | (none, m, s) => (none, m, s)
    | (some next, m, s) => descendTo permissions virtAddr stop n next m s

/-- `page_in` is the descent and the entry at its end. -/
theorem pageIn_eq (pml4 virtAddr physAddr pageSize permissions : Nat) (m : Mem) (s : σ) :
    pageIn alloc pml4 virtAddr physAddr pageSize permissions m s =
      match descendTo alloc permissions virtAddr (leafLevel pageSize) (3 - leafLevel pageSize) pml4 m s with
      | (none, m, s) => (-1, m, s)
      | (some table, m, s) =>
        (0, setEntry m table (vaIndex virtAddr (leafLevel pageSize))
          (leafEntry (leafLevel pageSize) permissions physAddr
            (entryAt m table (vaIndex virtAddr (leafLevel pageSize)))), s) := by
  obtain ⟨h3, h2, h1, h0⟩ := vaIndex_macros virtAddr
  unfold pageIn leafLevel
  rw [h3, h2, h1, h0]
  by_cases hsuper : pageSize = superPs
  · simp only [hsuper, reduceIte, descendTo, leafEntry]
    rcases enterTable alloc permissions pml4 (vaIndex virtAddr 3) m s with ⟨_ | t3, m3, s3⟩ <;> rfl
  simp only [if_neg hsuper]
  by_cases hhuge : pageSize = hugePs
  · simp only [hhuge, reduceIte, descendTo, leafEntry]
    rcases enterTable alloc permissions pml4 (vaIndex virtAddr 3) m s with ⟨_ | t3, m3, s3⟩
    · rfl
    · rcases h : enterTable alloc permissions t3 (vaIndex virtAddr 2) m3 s3 with ⟨_ | t2, m2, s2⟩ <;> simp [h]
  · simp only [if_neg hhuge, descendTo, leafEntry]
    rcases enterTable alloc permissions pml4 (vaIndex virtAddr 3) m s with ⟨_ | t3, m3, s3⟩
    · rfl
    · rcases h : enterTable alloc permissions t3 (vaIndex virtAddr 2) m3 s3 with ⟨_ | t2, m2, s2⟩
      · simp [h]
      · rcases h' : enterTable alloc permissions t2 (vaIndex virtAddr 1) m2 s2 with ⟨_ | t1, m1, s1⟩ <;> simp [h, h']

end

/-! ## The way down -/

/-- A walk ends below the level it starts from, in a present entry that ends walks there. -/
theorem mmuWalk_ends {m : Mem} {l f va : Nat} {w : Walk} (h : mmuWalk m l f va = some w) :
    w.level < l ∧ w.leaf.present = true ∧ w.leaf.EndsWalk w.level := by
  induction l generalizing f w with
  | zero => cases h
  | succ l ih =>
    obtain ⟨hp, ⟨he, rfl⟩ | ⟨-, w', hw', rfl⟩⟩ := mmuWalk_cases h
    · exact ⟨Nat.lt_succ_self l, hp, he⟩
    · obtain ⟨h1, h2, h3⟩ := ih hw'
      exact ⟨h1.trans (Nat.lt_succ_self l), h2, h3⟩

theorem mmuWalk_level_le {m : Mem} {l f va : Nat} {w : Walk} (h : mmuWalk m l f va = some w) : w.level ≤ 2 := by
  rcases (mmuWalk_ends h).2.2 with h0 | ⟨h2, -⟩
  · omega
  · exact h2

/-- No page larger than those of level `stop` maps the address. -/
def NoLarger (stop : Nat) (m : Mem) (l f va : Nat) : Prop := ∀ w, mmuWalk m l f va = some w → w.level ≤ stop

theorem NoLarger.not_ends {m : Mem} {stop l f va : Nat} (h : NoLarger stop m (l + 1) f va) (hl : stop < l)
    (hp : (entryAt m f (vaIndex va l)).present = true) : ¬(entryAt m f (vaIndex va l)).EndsWalk l := fun he =>
  absurd (h _ (mmuWalk_leaf hp he)) (Nat.not_le.2 hl)

theorem NoLarger.child {m : Mem} {stop l f va : Nat} (h : NoLarger stop m (l + 1) f va) (hl : stop < l)
    (hp : (entryAt m f (vaIndex va l)).present = true) : NoLarger stop m l (entryAt m f (vaIndex va l)).frame va := by
  intro w hw
  refine h { w with upper := entryAt m f (vaIndex va l) :: w.upper } ?_
  rw [mmuWalk_table hp (h.not_ends hl hp), hw]
  rfl

/-- Entries that are not present are zero: nothing was ever taken out of these tables. -/
def Tables.Blank (T : Tables) (m : Mem) : Prop :=
  ∀ f i, T.level f ≠ 0 → i < 512 → (entryAt m f i).present = false → entryAt m f i = 0

theorem Entry.not_ends_zero {l : Nat} : ¬Entry.EndsWalk 0 (l + 1) := by
  rintro (h | ⟨-, h⟩)
  · exact Nat.succ_ne_zero l h
  · cases h

/-- On the way of an address that no larger page maps no entry ends the walk, be it present or not. -/
theorem NoLarger.ends_not {T : Tables} {m : Mem} {stop l f va : Nat} (h : NoLarger stop m (l + 2) f va) (hb : T.Blank m)
    (hl : stop < l + 1) (hf : T.level f ≠ 0) : ¬(entryAt m f (vaIndex va (l + 1))).EndsWalk (l + 1) := by
  cases hp : (entryAt m f (vaIndex va (l + 1))).present with
  | true => exact h.not_ends hl hp
  | false =>
    rw [hb f _ hf (vaIndex_lt ..) hp]
    exact Entry.not_ends_zero

section
variable {σ : Type} {src : FrameSource σ} {T T' : Tables} {m m' : Mem} {s s' : σ} {p va f i l c stop : Nat}

theorem Entered.blank (h : Entered src p T m s f i l c T' m' s') (hb : T.Blank m) : T'.Blank m' := by
  intro g j hg hj hp
  by_cases hgf : g = f ∧ j = i
  · rw [hgf.1, hgf.2, h.present] at hp
    cases hp
  · have hold : T.level g ≠ 0 → entryAt m' g j = 0 := by
      intro hlevel
      rw [h.other g j hlevel hj hgf] at hp ⊢
      exact hb g j hlevel hj hp
    rcases h.grown with ⟨-, -, rfl, -⟩ | ⟨-, rfl, hzero, -⟩
    · exact hold hg
    · by_cases hgc : g = c
      · rw [hgc]
        exact hzero j hj
      · apply hold
        intro h0
        exact hg ((Function.update_of_ne hgc ..).trans h0)

/-- Below the entered table no larger page appears on the way. -/
theorem Entered.noLarger (h : Entered src p T m s f (vaIndex va (l + 1)) l c T' m' s') (hwf : T.WF m)
    (hf : T.level f = l + 2) (hl : stop ≤ l) (hlarge : NoLarger stop m (l + 2) f va) :
    NoLarger stop m' (l + 1) c va := by
  intro w hw
  obtain ⟨hp, hold⟩ := h.walk_old hwf hf hw
  exact hlarge.child (by omega) hp w hold

end

/-- How a descent of `n` levels from the table `f` to one of level `stop + 1` goes: through entries that do not end the
walk, to the table it names or to the allocation that fails. -/
inductive DescendsTo {σ : Type} (src : FrameSource σ) (p va stop : Nat) :
    (n f : Nat) → Tables → Mem → σ → Option Nat → Tables → Mem → σ → Prop
  | here (f : Nat) (T : Tables) (m : Mem) (s : σ) : DescendsTo src p va stop 0 f T m s (some f) T m s
  | failed {n f : Nat} {T : Tables} {m : Mem} {s : σ} :
      (entryAt m f (vaIndex va (stop + n + 1))).present = false → (src.alloc s).1 = frameAllocFailed →
        DescendsTo src p va stop (n + 1) f T m s none T m (src.alloc s).2
  | enter {n f c : Nat} {T T₁ T' : Tables} {m m₁ m' : Mem} {s s₁ s' : σ} {r : Option Nat} :
      ¬(entryAt m f (vaIndex va (stop + n + 1))).EndsWalk (stop + n + 1) →
        Entered src p T m s f (vaIndex va (stop + n + 1)) (stop + n) c T₁ m₁ s₁ →
          DescendsTo src p va stop n c T₁ m₁ s₁ r T' m' s' → DescendsTo src p va stop (n + 1) f T m s r T' m' s'

/-- Where no larger page is in the way `descendTo` does so. -/
theorem descendTo_spec {σ : Type} {src : FrameSource σ} {p va stop : Nat} (n : Nat) {T : Tables} {m : Mem} {s : σ}
    {f : Nat} (hwf : T.WF m) (hb : T.Blank m) (hs : T.Apart src s) (hf : T.level f = stop + n + 1)
    (hlarge : NoLarger stop m (stop + n + 1) f va) :
    ∃ r m' s' T', descendTo src.alloc p va stop n f m s = (r, m', s') ∧
      DescendsTo src p va stop n f T m s r T' m' s' := by
  induction n generalizing f m s T with
  | zero => exact ⟨some f, m, s, T, rfl, .here f T m s⟩
  | succ n ih =>
    have hi := vaIndex_lt va (stop + n + 1)
    have hends := NoLarger.ends_not (l := stop + n) hlarge hb (by omega) (by omega)
    rcases enterTable_spec (p := p) hwf hs hf hi (fun _ => hends) with ⟨c, m₁, T₁, s₁, henter, hent⟩ | ⟨henter, hp, ha⟩
    · obtain ⟨r, m', s', T', hdesc, hd⟩ := ih hent.wf (hent.blank hb) hent.apart hent.level
        (hent.noLarger hwf hf (by omega) hlarge)
      exact ⟨r, m', s', T', by rw [descendTo, henter]; exact hdesc, .enter hends hent hd⟩
    · exact ⟨none, m, _, T, by rw [descendTo, henter], .failed hp ha⟩

/-! ## What the descent keeps -/

/-- The upper entries on the way of `va` from the table `f` of level `stop + n + 1` to the table `c`. -/
inductive PathTo (m : Mem) (va stop : Nat) : (n f : Nat) → List Entry → (c : Nat) → Prop
  | here (f : Nat) : PathTo m va stop 0 f [] f
  | down {n f c : Nat} {e : Entry} {es : List Entry} : entryAt m f (vaIndex va (stop + n + 1)) = e → e.present = true →
      ¬e.EndsWalk (stop + n + 1) → PathTo m va stop n e.frame es c → PathTo m va stop (n + 1) f (e :: es) c

theorem PathTo.walk {m : Mem} {va stop n f c : Nat} {es : List Entry} (h : PathTo m va stop n f es c)
    (hp : (entryAt m c (vaIndex va stop)).present = true) (hend : (entryAt m c (vaIndex va stop)).EndsWalk stop) :
    mmuWalk m (stop + n + 1) f va = some ⟨es, entryAt m c (vaIndex va stop), stop⟩ := by
  induction h with
  | here f => exact mmuWalk_leaf hp hend
  | down he hpe hne _ ih =>
    subst he
    rw [← Nat.add_assoc, mmuWalk_table hpe hne, ih hp hend]
    rfl

/-- The way depends on the tables above the one it leads to. -/
theorem PathTo.congr {T : Tables} {m m' : Mem} {va stop n f c : Nat} {es : List Entry} (h : PathTo m va stop n f es c)
    (hwf : T.WF m) (hsame : ∀ g j, stop + 2 ≤ T.level g → j < 512 → entryAt m' g j = entryAt m g j)
    (hf : T.level f = stop + n + 1) : PathTo m' va stop n f es c := by
  induction h with
  | here f => exact .here f
  | down he hpe hend _ ih =>
    subst he
    exact .down (hsame _ _ (by omega) (vaIndex_lt ..)) hpe hend
      (ih (hwf.child_frame hf (vaIndex_lt ..) hpe hend).1)

/-- Addresses of one page take the same way. -/
theorem PathTo.of_page {m : Mem} {va va' stop n f c : Nat} {es : List Entry} (h : PathTo m va stop n f es c)
    (hpage : ∀ l, stop ≤ l → l ≤ 3 → vaIndex va' l = vaIndex va l) (hn : stop + n ≤ 3) :
    PathTo m va' stop n f es c := by
  induction h with
  | here f => exact .here f
  | down he hpe hend _ ih =>
    exact .down (by rw [hpage _ (by omega) (by omega)]; exact he) hpe hend (ih (by omega))

section
variable {σ : Type} {src : FrameSource σ} {T T' : Tables} {m m' : Mem} {s s' : σ} {p va stop n f c : Nat}
  {r : Option Nat}

namespace DescendsTo

theorem toExtends (h : DescendsTo src p va stop n f T m s r T' m' s') : Extends src T m s T' m' s' := by
  induction h with
  | here => exact .refl ..
  | failed => exact .failed ..
  | enter _ hent _ ih => exact hent.toExtends.trans ih

theorem blank (h : DescendsTo src p va stop n f T m s r T' m' s') (hb : T.Blank m) : T'.Blank m' := by
  induction h with
  | here => exact hb
  | failed => exact hb
  | enter _ hent _ ih => exact ih (hent.blank hb)

/-- Tables above `f` and tables at the end of the descent are left alone. -/
theorem outer (h : DescendsTo src p va stop n f T m s r T' m' s') (hf : T.level f = stop + n + 1) {g j : Nat}
    (hg : T.level g ≠ 0) (hgl : stop + n + 1 < T.level g ∨ T.level g ≤ stop + 1) (hj : j < 512) :
    entryAt m' g j = entryAt m g j := by
  induction h with
  | here => rfl
  | failed => rfl
  | enter _ hent _ ih =>
    have hlevel := (hent.le g hg).1
    rw [ih hent.level (by rwa [hlevel]) (by omega), hent.other g j hg hj]
    rintro ⟨rfl, -⟩
    omega

/-- No translation appears, and none goes. -/
theorem walks (h : DescendsTo src p va stop n f T m s r T' m' s') (hwf : T.WF m) (hf : T.level f = stop + n + 1)
    {k g va' : Nat} (hg : T.level g = k) : Walk.Widens (mmuWalk m k g va') (mmuWalk m' k g va') := by
  induction h with
  | here => exact .refl _
  | failed => exact .refl _
  | enter hends hent _ ih =>
    rcases k with _ | k
    · exact .missing
    · exact (hent.walks hwf hf (vaIndex_lt ..) hends hg).trans
        (ih hent.wf hent.level ((hent.le g (by omega)).1.trans hg))

/-- The table named is one of level `stop + 1`. -/
theorem reached (h : DescendsTo src p va stop n f T m s (some c) T' m' s') (hf : T.level f = stop + n + 1) :
    T'.level c = stop + 1 := by
  generalize hr : some c = r at h
  induction h with
  | here =>
    cases hr
    exact hf
  | failed => cases hr
  | enter _ hent _ ih => exact ih hent.level hr

/-- It is the one that serves the part of the address space `va` lies in. -/
theorem reached_pre (h : DescendsTo src p va stop n f T m s (some c) T' m' s') (hpl : T.Placed m) (hn : stop + n ≤ 3)
    (hpre : T.pre f = vaPrefix va (stop + n + 1)) : T'.pre c = vaPrefix va (stop + 1) := by
  generalize hr : some c = r at h
  induction h with
  | here =>
    cases hr
    exact hpre
  | failed => cases hr
  | @enter n f _ _ _ _ _ _ _ _ _ _ _ _ hent _ ih =>
    refine ih (hent.placed hpl).1 (by omega) ?_ hr
    rw [(hent.placed hpl).2, hpre]
    exact (vaPrefix_succ va (show stop + n + 1 ≤ 3 by omega)).symm

/-- The way to it. -/
theorem path (h : DescendsTo src p va stop n f T m s (some c) T' m' s') (hf : T.level f = stop + n + 1) :
    ∃ es, PathTo m' va stop n f es c := by
  generalize hr : some c = r at h
  induction h with
  | here =>
    cases hr
    exact ⟨[], .here c⟩
  | failed => cases hr
  | @enter n f c₁ T T₁ T' m m₁ m' s s₁ s' r hends hent hd ih =>
    have hi := vaIndex_lt va (stop + n + 1)
    have hlevel := (hent.le f (by omega)).1
    obtain ⟨es, hes⟩ := ih hent.level hr
    have hsame : entryAt m' f (vaIndex va (stop + n + 1)) = entryAt m₁ f (vaIndex va (stop + n + 1)) :=
      hd.outer hent.level (by omega) (by omega) hi
    have hframe : (entryAt m₁ f (vaIndex va (stop + n + 1))).frame = c₁ := by
      rw [Entry.frame_eq (hent.wf.reserved f _ (by omega) hi), hent.pagePpn]
    refine ⟨_ :: es, .down hsame hent.present ?_ (by rwa [hframe])⟩
    rintro (h0 | ⟨h1, h2⟩)
    · exact Nat.succ_ne_zero _ h0
    · exact hends (.inr ⟨h1, (hent.bits 7 (.inl rfl)).symm.trans h2⟩)

end DescendsTo

end

/-! ## One call -/

/-- The tables of `T` were built by `page_in` from the zeroed root `pml4`, with pages of any sizes. -/
structure Built {σ : Type} (src : FrameSource σ) (pml4 : Nat) (T : Tables) (m : Mem) (s : σ) : Prop where
  wf : T.WF m
  placed : T.Placed m
  blank : T.Blank m
  apart : T.Apart src s
  root : T.level pml4 = 4
  rootPre : T.pre pml4 = 0

/-- What a call of `page_in` for a page of level `stop` does: the descent fails, or the entry of the page is written. -/
inductive PagedTo {σ : Type} (src : FrameSource σ) (pml4 va pa p stop : Nat) (T : Tables) (m : Mem) (s : σ) :
    Int → Tables → Mem → σ → Prop
  | failed {T' : Tables} {m' : Mem} {s' : σ} : DescendsTo src p va stop (3 - stop) pml4 T m s none T' m' s' →
      PagedTo src pml4 va pa p stop T m s (-1) T' m' s'
  | mapped {c : Nat} {T' : Tables} {m' : Mem} {s' : σ} :
      DescendsTo src p va stop (3 - stop) pml4 T m s (some c) T' m' s' →
      PagedTo src pml4 va pa p stop T m s 0 T'
        (setEntry m' c (vaIndex va stop) (leafEntry stop p pa (entryAt m' c (vaIndex va stop)))) s'

section
variable {T : Tables} {m : Mem} {c va va' stop : Nat} {e : Entry}

/-- Writing an entry of level `stop` changes the walk of no address that is decided by another one. -/
theorem mmuWalk_setLeafAt (hwf : T.WF m) (hpl : T.Placed m) (hc : T.level c = stop + 1) (hstop : stop ≤ 2)
    (hpre : T.pre c = vaPrefix va (stop + 1)) (hne : vaPrefix va' stop ≠ vaPrefix va stop) {k g : Nat} (hk : k ≤ 4)
    (hg : T.level g = k) (hgpre : T.pre g = vaPrefix va' k) :
    mmuWalk (setEntry m c (vaIndex va stop) e) k g va' = mmuWalk m k g va' := by
  induction k generalizing g with
  | zero => rfl
  | succ k ih =>
    have hj := vaIndex_lt va' k
    refine mmuWalk_step ?_ fun hp he => ?_
    · rw [entryAt_setEntry (hwf.aligned c (by omega)) (hwf.aligned g (by omega)) (vaIndex_lt va stop) hj, if_neg]
      -- the same entry would mean the same page
      rintro ⟨rfl, hidx⟩
      obtain rfl : k = stop := by omega
      apply hne
      rw [vaPrefix_succ va' (by omega), vaPrefix_succ va (by omega), hidx, ← hgpre, ← hpre]
    · obtain ⟨hlevel, hpre'⟩ := hwf.child_frame hg hj hp he
      exact ih (by omega) hlevel (by rw [hpre' hpl, hgpre, ← vaPrefix_succ va' (by omega)])

end

section
variable {σ : Type} {src : FrameSource σ} {T T' : Tables} {m m' : Mem} {s s' : σ} {pml4 va pa p stop : Nat} {r : Int}

/-- Where no larger page maps the address `page_in` does so. -/
theorem pageIn_paged (va pa p pageSize : Nat) (hT : Built src pml4 T m s)
    (hlarge : NoLarger (leafLevel pageSize) m 4 pml4 va) :
    ∃ r m' s' T', pageIn src.alloc pml4 va pa pageSize p m s = (r, m', s') ∧
      PagedTo src pml4 va pa p (leafLevel pageSize) T m s r T' m' s' := by
  have hstop := leafLevel_le pageSize
  have hsum : leafLevel pageSize + (3 - leafLevel pageSize) + 1 = 4 := by omega
  obtain ⟨r, m', s', T', hdesc, hd⟩ := descendTo_spec (p := p) (3 - leafLevel pageSize) hT.wf hT.blank hT.apart
    (hT.root.trans hsum.symm) (by rwa [hsum])
  rw [pageIn_eq, hdesc]
  cases r with
  | none => exact ⟨-1, m', s', T', rfl, .failed hd⟩
  | some c => exact ⟨0, _, s', T', rfl, .mapped hd⟩

theorem DescendsTo.built {o : Option Nat} (h : DescendsTo src p va stop (3 - stop) pml4 T m s o T' m' s')
    (hT : Built src pml4 T m s) : Built src pml4 T' m' s' := by
  have hx := h.toExtends
  obtain ⟨hroot, hpre⟩ := hx.le pml4 (by rw [hT.root]; decide)
  exact ⟨hx.wf hT.wf, hx.placed hT.placed, h.blank hT.blank, hx.apart hT.apart, hroot.trans hT.root,
    hpre.trans hT.rootPre⟩

theorem Built.setLeaf (p pa : Nat) (h : Built src pml4 T m s) {c i : Nat} (hc : T.level c = stop + 1) (hstop : stop ≤ 2)
    (hi : i < 512) :
    Built src pml4 T (setEntry m c i (leafEntry stop p pa (entryAt m c i))) s := by
  have hres : (leafEntry stop p pa (entryAt m c i)).reserved = 0 := leafEntry_reserved (h.wf.reserved c i (by omega) hi)
  have hend : ¬¬(leafEntry stop p pa (entryAt m c i)).EndsWalk stop := not_not.2 (leafEntry_ends hstop)
  refine ⟨h.wf.setEntry hc hi hres fun _ hne => absurd hne hend,
    h.placed.setEntry h.wf hc hi fun _ hne => absurd hne hend, ?_, h.apart, h.root, h.rootPre⟩
  intro g j hg hj hp
  rw [entryAt_setEntry (h.wf.aligned c (by omega)) (h.wf.aligned g hg) hi hj] at hp ⊢
  split_ifs at hp ⊢ with hgc
  · rw [leafEntry_present] at hp
    cases hp
  · exact h.blank g j hg hj hp

/-- The walk of an address ends in a page of level `stop`, in an entry that names `pa`. -/
def MapsTo (stop pa : Nat) (w : Walk) : Prop :=
  w.level = stop ∧ w.leaf.reserved = 0 ∧ w.leaf.pagePpn = pa / 4096 % 2 ^ 28

/-- It ends in an entry that `page_in` wrote for a page of level `stop`. -/
def Walk.EndsIn (w : Walk) (stop p pa : Nat) : Prop :=
  w.level = stop ∧ ∃ e : Entry, e.reserved = 0 ∧ w.leaf = leafEntry stop p pa e

theorem Walk.EndsIn.mapsTo {w : Walk} (h : w.EndsIn stop p pa) : MapsTo stop pa w := by
  obtain ⟨hlevel, e, he, hleaf⟩ := h
  refine ⟨hlevel, ?_, ?_⟩
  · rw [hleaf]
    exact leafEntry_reserved he
  · rw [hleaf]
    exact leafEntry_pagePpn

/-- A call fails and changes no walk but for rights of upper entries, or maps its page and changes no other walk but for
these. -/
theorem PagedTo.walks (h : PagedTo src pml4 va pa p stop T m s r T' m' s') (hT : Built src pml4 T m s)
    (hstop : stop ≤ 2) :
    Built src pml4 T' m' s' ∧
      (r = -1 ∧ (∀ va', Walk.Widens (mmuWalk m 4 pml4 va') (mmuWalk m' 4 pml4 va')) ∨
        r = 0 ∧ (∀ va', vaPrefix va' stop ≠ vaPrefix va stop →
            Walk.Widens (mmuWalk m 4 pml4 va') (mmuWalk m' 4 pml4 va')) ∧
          ∀ va', vaPrefix va' stop = vaPrefix va stop → ∃ w, mmuWalk m' 4 pml4 va' = some w ∧ w.EndsIn stop p pa) := by
  have hsum : stop + (3 - stop) + 1 = 4 := by omega
  cases h with
  | failed hd => exact ⟨hd.built hT, .inl ⟨rfl, fun va' => hd.walks hT.wf (hT.root.trans hsum.symm) hT.root⟩⟩
  | @mapped c T' m₁ s' hd =>
    have hbuilt := hd.built hT
    have hlevel := hd.reached (hT.root.trans hsum.symm)
    have hi := vaIndex_lt va stop
    have hpre := hd.reached_pre hT.placed (by omega) (by rw [hT.rootPre, hsum, vaPrefix_four])
    have hwalks : ∀ va', Walk.Widens (mmuWalk m 4 pml4 va') (mmuWalk m₁ 4 pml4 va') :=
      fun va' => hd.walks hT.wf (hT.root.trans hsum.symm) hT.root
    have hself : entryAt (setEntry m₁ c (vaIndex va stop) (leafEntry stop p pa (entryAt m₁ c (vaIndex va stop)))) c
        (vaIndex va stop) = leafEntry stop p pa (entryAt m₁ c (vaIndex va stop)) := Mem.load64_store64_same ..
    have hbuilt' := hbuilt.setLeaf p pa hlevel hstop hi
    refine ⟨hbuilt', .inr ⟨rfl, fun va' hne => ?_, fun va' hva => ?_⟩⟩
    · rw [mmuWalk_setLeafAt hbuilt.wf hbuilt.placed hlevel hstop hpre hne le_rfl hbuilt.root
        (by rw [hbuilt.rootPre, vaPrefix_four])]
      exact hwalks va'
    · obtain ⟨es, hes⟩ := hd.path (hT.root.trans hsum.symm)
      -- the way above the entry is left alone by its write
      have hkept : PathTo (setEntry m₁ c (vaIndex va stop) (leafEntry stop p pa (entryAt m₁ c (vaIndex va stop))))
          va stop (3 - stop) pml4 es c := by
        refine hes.congr hbuilt.wf (fun g j hg hj => ?_) (hbuilt.root.trans hsum.symm)
        rw [entryAt_setEntry (hbuilt.wf.aligned c (by omega)) (hbuilt.wf.aligned g (by omega)) hi hj, if_neg]
        rintro ⟨rfl, -⟩
        omega
      have hes' := hkept.of_page (fun l h1 h2 => vaIndex_congr hva h1 h2) (by omega)
      have hidx : vaIndex va' stop = vaIndex va stop := vaIndex_congr hva le_rfl (by omega)
      have hwalk := hes'.walk (by rw [hidx, hself]; exact leafEntry_present)
        (by rw [hidx, hself]; exact leafEntry_ends hstop)
      rw [hsum, hidx, hself] at hwalk
      exact ⟨_, hwalk, rfl, _, hbuilt.wf.reserved c _ (by omega) hi, rfl⟩

/-- Nothing is mapped under a zeroed root. -/
theorem Built.zeroed (hok : src.Ok s) (haligned : pml4 % 4096 = 0) (hfree : pml4 ∉ src.free s)
    (hzero : ∀ i, i < 512 → entryAt m pml4 i = 0) :
    Built src pml4 (.only pml4) m s :=
  ⟨Tables.only_wf haligned hzero, Tables.only_placed hzero, fun _ _ hf hi _ => entryAt_only hzero hf hi,
    Tables.only_apart hok hfree, if_pos rfl, rfl⟩

theorem noLarger_zeroed (hzero : ∀ i, i < 512 → entryAt m pml4 i = 0) (stop va : Nat) : NoLarger stop m 4 pml4 va := by
  intro w hw
  rw [mmuWalk_zeroed hzero] at hw
  cases hw

/-- The first call from a zeroed root maps its page at most. -/
theorem Built.first (hT : Built src pml4 T m s) (hzero : ∀ i, i < 512 → entryAt m pml4 i = 0) (va pa p pageSize : Nat) :
    ∃ r m' s' T', pageIn src.alloc pml4 va pa pageSize p m s = (r, m', s') ∧ Built src pml4 T' m' s' ∧
      ∀ va', vaPrefix va' (leafLevel pageSize) ≠ vaPrefix va (leafLevel pageSize) → mmuWalk m' 4 pml4 va' = none := by
  obtain ⟨r, m', s', T', he, hpaged⟩ := pageIn_paged va pa p pageSize hT (noLarger_zeroed hzero _ va)
  obtain ⟨hbuilt, hwalks⟩ := hpaged.walks hT (leafLevel_le pageSize)
  have hwiden : ∀ va', vaPrefix va' (leafLevel pageSize) ≠ vaPrefix va (leafLevel pageSize) →
      Walk.Widens (mmuWalk m 4 pml4 va') (mmuWalk m' 4 pml4 va') := by
    intro va' hne
    rcases hwalks with ⟨-, hall⟩ | ⟨-, houter, -⟩
    · exact hall va'
    · exact houter va' hne
  refine ⟨r, m', s', T', he, hbuilt, fun va' hne => ?_⟩
  have hnone := hwiden va' hne
  rw [mmuWalk_zeroed hzero] at hnone
  exact hnone.eq_none

theorem eightFrames_le : 0x8000 ≤ 2 ^ 31 := by decide

/-- Memory of zeros, with the root in the first frame and the tables in the seven behind it. -/
theorem built_zeros : Built (bumpSource 0x8000 eightFrames_le) 0 (.only 0) (fun _ => 0) 1 :=
  Built.zeroed trivial (by decide) (fun h => absurd h.2.1 (by decide)) fun _ _ => entryAt_zero ..

end

end Icarus.Memory
