/-
The descent of `page_in` through the upper levels: what entering one table does to the tree of tables
and to the walks through it, and from that what the whole descent does.
-/
import Icarus.Memory.FrameSource
import Icarus.Memory.PageTables

namespace Icarus.Memory

open Icarus.Base

/-- The allocator works, and no table is a frame it may still give out. -/
structure Tables.Apart {σ : Type} (T : Tables) (src : FrameSource σ) (s : σ) : Prop where
  ok : src.Ok s
  free : ∀ f ∈ src.free s, T.level f = 0

/-! ## Entering a table -/

section
variable {σ : Type} {alloc : σ → Nat × σ} {p f i : Nat} {m : Mem} {s : σ}

theorem enterTable_present (h : (entryAt m f i).present = true) :
    enterTable alloc p f i m s =
      (some (applyUpperPerms p (entryAt m f i)).tableAddr, setEntry m f i (applyUpperPerms p (entryAt m f i)), s) := by
  unfold enterTable
  rw [if_pos h]
  simp only [entryAt, setEntry, Mem.load64_store64_same]

theorem enterTable_failed (h : (entryAt m f i).present = false) (ha : (alloc s).1 = frameAllocFailed) :
    enterTable alloc p f i m s = (none, m, (alloc s).2) := by
  unfold enterTable
  rw [if_neg (by simp [h])]
  exact if_pos ha

theorem enterTable_new {c : Nat} (h : (entryAt m f i).present = false) (ha : (alloc s).1 = c)
    (hc : c ≠ frameAllocFailed) (hsame : entryAt (m.fill c defaultPageSize 0) f i = entryAt m f i) :
    enterTable alloc p f i m s =
      (some (tableEntry p c (entryAt m f i)).tableAddr,
        setEntry (m.fill c defaultPageSize 0) f i (tableEntry p c (entryAt m f i)), (alloc s).2) := by
  subst ha
  unfold enterTable
  rw [if_neg (by simp [h])]
  dsimp only
  rw [if_neg hc, hsame]
  simp only [entryAt, setEntry, Mem.load64_store64_same, Mem.store64, Mem.store_store_same, tableEntry]

end

/-- The table `c` of level `l + 1` was entered through entry `i` of `f`. -/
structure Entered {σ : Type} (src : FrameSource σ) (p : Nat) (T : Tables) (m : Mem) (s : σ) (f i l c : Nat)
    (T' : Tables) (m' : Mem) (s' : σ) : Prop where
  le : T.Le T'
  wf : T'.WF m'
  apart : T'.Apart src s'
  level : T'.level c = l + 1
  placed : T.Placed m → T'.Placed m' ∧ T'.pre c = T.pre f * 512 + i
  present : (entryAt m' f i).present = true
  pagePpn : (entryAt m' f i).pagePpn * 4096 = c
  user : permBit p userAccessShift = true → (entryAt m' f i).userAccess = true
  write : permBit p writeableShift = true → (entryAt m' f i).writeable = true
  bits : ∀ j, j = 7 ∨ j = 63 → (entryAt m' f i).getLsbD j = (entryAt m f i).getLsbD j
  other : ∀ g j, T.level g ≠ 0 → j < 512 → ¬(g = f ∧ j = i) → entryAt m' g j = entryAt m g j
  footprint : ∀ a, T'.level (a / 4096 * 4096) = 0 → m' a = m a
  /-- the entry was there, or a new table hangs on it -/
  grown : (entryAt m f i).present = true ∧ (entryAt m f i).Widens (entryAt m' f i) ∧ T' = T ∧ s' = s ∨
    (entryAt m f i).present = false ∧ T' = T.insert c (l + 1) (T.pre f * 512 + i) ∧
      (∀ j, j < 512 → entryAt m' c j = 0) ∧ src.alloc s = (c, s') ∧ c ∈ src.free s

/-- A write into a frame leaves the others alone. -/
theorem setEntry_of_ne {m : Mem} {f i a : Nat} {e : Entry} (hf : f % 4096 = 0) (hi : i < 512)
    (h : a / 4096 * 4096 ≠ f) : setEntry m f i e a = m a :=
  Mem.store_of_lt (by omega)

theorem fill_of_ne {m : Mem} {c a : Nat} (hc : c % 4096 = 0) (h : a / 4096 * 4096 ≠ c) :
    m.fill c defaultPageSize 0 a = m a :=
  Mem.fill_of_lt (by unfold defaultPageSize; omega)

section
variable {σ : Type} {src : FrameSource σ} {T T' : Tables} {m m' : Mem} {s s' : σ} {p f i l c : Nat}

theorem entered_present (h : T.WF m) (hs : T.Apart src s) (hf : T.level f = l + 2) (hi : i < 512)
    (hp : (entryAt m f i).present = true) (he : ¬(entryAt m f i).EndsWalk (l + 1)) :
    ∃ c, enterTable src.alloc p f i m s = (some c, setEntry m f i (applyUpperPerms p (entryAt m f i)), s) ∧
      Entered src p T m s f i l c T (setEntry m f i (applyUpperPerms p (entryAt m f i))) s := by
  have hw := applyUpperPerms_widens p (entryAt m f i)
  obtain ⟨hlevel, hppn⟩ := h.child f i l hf hi hp he
  have hself : entryAt (setEntry m f i (applyUpperPerms p (entryAt m f i))) f i = applyUpperPerms p (entryAt m f i) :=
    Mem.load64_store64_same ..
  have hfa := h.aligned f (by omega)
  refine ⟨(entryAt m f i).pagePpn * 4096, ?_, .refl T, ?_, hs, hlevel, fun hpl => ⟨?_, hpl f i l hf hi hp he⟩, ?_, ?_,
    ?_, ?_, ?_, fun g j hg hj hne => ?_, fun a ha => ?_, .inl ⟨hp, ?_, rfl, rfl⟩⟩
  · rw [enterTable_present hp, Entry.tableAddr_eq (by rwa [hw.pagePpn]), hw.pagePpn]
  · refine h.setEntry hf hi ?_ fun _ _ => ?_
    · rw [hw.reserved]
      exact h.reserved f i (by omega) hi
    · rw [hw.pagePpn]
      exact ⟨hlevel, hppn⟩
  · refine hpl.setEntry h hf hi fun _ _ => ?_
    rw [hw.pagePpn]
    exact hpl f i l hf hi hp he
  · rw [hself, hw.present, hp]
  · rw [hself, hw.pagePpn]
  · rw [hself]
    exact applyUpperPerms_user _
  · rw [hself]
    exact applyUpperPerms_write _
  · rintro j hj
    rw [hself]
    exact hw.other j (by omega) (by omega)
  · rw [entryAt_setEntry hfa (h.aligned g hg) hi hj, if_neg hne]
  · refine setEntry_of_ne hfa hi ?_
    rintro rfl
    omega
  · rwa [hself]

theorem entered_new (h : T.WF m) (hs : T.Apart src s) (hf : T.level f = l + 2) (hi : i < 512)
    (hp : (entryAt m f i).present = false) (hin : c ∈ src.free s) (hout : c ∉ src.free s')
    (ha : src.alloc s = (c, s')) :
    enterTable src.alloc p f i m s =
        (some c, setEntry (m.fill c defaultPageSize 0) f i (tableEntry p c (entryAt m f i)), s') ∧
      Entered src p T m s f i l c (T.insert c (l + 1) (T.pre f * 512 + i))
        (setEntry (m.fill c defaultPageSize 0) f i (tableEntry p c (entryAt m f i))) s' := by
  have hnew := hs.free c hin
  have hc := src.aligned s c hs.ok hin
  have hlow := src.low s c hs.ok hin
  have hs' : s' = (src.alloc s).2 := by rw [ha]
  -- a free frame is no table, so what is written into it leaves the tables alone
  have hfc : f ≠ c := by
    rintro rfl
    omega
  have hfa := h.aligned f (by omega)
  obtain ⟨hppn, hppn'⟩ := tableEntry_pagePpn (p := p) (e := entryAt m f i) hc hlow
  have hself : entryAt (setEntry (m.fill c defaultPageSize 0) f i (tableEntry p c (entryAt m f i))) f i =
      tableEntry p c (entryAt m f i) := Mem.load64_store64_same ..
  have hins : (T.insert c (l + 1) (T.pre f * 512 + i)).WF (m.fill c defaultPageSize 0) := h.insert hc hnew
  have hlevel : (T.insert c (l + 1) (T.pre f * 512 + i)).level c = l + 1 := Function.update_self ..
  have hpre : (T.insert c (l + 1) (T.pre f * 512 + i)).pre c = T.pre f * 512 + i := Function.update_self ..
  have hflevel : (T.insert c (l + 1) (T.pre f * 512 + i)).level f = l + 2 := (Function.update_of_ne hfc ..).trans hf
  have hfpre : (T.insert c (l + 1) (T.pre f * 512 + i)).pre f = T.pre f := Function.update_of_ne hfc ..
  refine ⟨?_, T.le_insert hnew, ?_, ⟨hs' ▸ src.ok s hs.ok, fun g hg => ?_⟩, hlevel, fun hpl => ⟨?_, hpre⟩, ?_, ?_,
    fun hu => ?_, fun hw => ?_, fun j hj => ?_, fun g j hg hj hne => ?_, fun a ha' => ?_,
    .inr ⟨hp, rfl, fun j hj => ?_, ha, hin⟩⟩
  · rw [enterTable_new hp (congrArg Prod.fst ha) (by unfold frameAllocFailed; omega) (entryAt_fill_of_ne hc hfa hfc hi),
      Entry.tableAddr_eq hppn', hppn, ha]
  · refine hins.setEntry hflevel hi (tableEntry_reserved (h.reserved f i (by omega) hi)) fun _ _ => ?_
    rw [hppn]
    exact ⟨hlevel, hppn'⟩
  · have hgc : g ≠ c := by
      rintro rfl
      exact hout hg
    exact (Function.update_of_ne hgc ..).trans (hs.free g (src.shrinks s hs.ok (hs' ▸ hg)))
  · refine (hpl.insert h hc hnew).setEntry hins hflevel hi fun _ _ => ?_
    rw [hppn, hpre, hfpre]
  · rw [hself]
    exact tableEntry_present
  · rw [hself, hppn]
  · rw [hself]
    exact applyUpperPerms_user _ hu
  · rw [hself]
    exact applyUpperPerms_write _ hw
  · rw [hself]
    exact tableEntry_other hj
  · have hgc : g ≠ c := by
      rintro rfl
      exact hg hnew
    rw [entryAt_setEntry hfa (h.aligned g hg) hi hj, if_neg hne, entryAt_fill_of_ne hc (h.aligned g hg) hgc hj]
  · rw [setEntry_of_ne hfa hi (by rintro rfl; omega), fill_of_ne hc (by rintro rfl; omega)]
  · rw [entryAt_setEntry hfa hc hi hj, if_neg (fun hcf => hfc hcf.1.symm), entryAt_fill_self hj]

/-- Entering a table leads to a table of the next level, or fails and changes nothing. -/
theorem enterTable_spec (h : T.WF m) (hs : T.Apart src s) (hf : T.level f = l + 2) (hi : i < 512)
    (he : (entryAt m f i).present = true → ¬(entryAt m f i).EndsWalk (l + 1)) :
    (∃ c m' T' s', enterTable src.alloc p f i m s = (some c, m', s') ∧ Entered src p T m s f i l c T' m' s') ∨
      enterTable src.alloc p f i m s = (none, m, (src.alloc s).2) ∧ (entryAt m f i).present = false ∧
        (src.alloc s).1 = frameAllocFailed := by
  cases hp : (entryAt m f i).present with
  | true =>
    obtain ⟨c, h1, h2⟩ := @entered_present σ src T m s p f i l h hs hf hi hp (he hp)
    exact .inl ⟨c, _, T, s, h1, h2⟩
  | false =>
    rcases src.fresh s hs.ok with ha | ⟨hin, hout⟩
    · exact .inr ⟨enterTable_failed hp ha, rfl, ha⟩
    · obtain ⟨h1, h2⟩ := entered_new (p := p) h hs hf hi hp hin hout rfl
      exact .inl ⟨_, _, _, _, h1, h2⟩

end

/-! ## Walks -/

theorem mmuWalk_absent {m : Mem} {l f va : Nat} (h : (entryAt m f (vaIndex va l)).present = false) :
    mmuWalk m (l + 1) f va = none := if_pos h

theorem mmuWalk_leaf {m : Mem} {l f va : Nat} (h : (entryAt m f (vaIndex va l)).present = true)
    (he : (entryAt m f (vaIndex va l)).EndsWalk l) :
    mmuWalk m (l + 1) f va = some ⟨[], entryAt m f (vaIndex va l), l⟩ := by
  unfold mmuWalk
  dsimp only
  rw [if_neg (by simp [h]), if_pos he]

theorem mmuWalk_table {m : Mem} {l f va : Nat} (h : (entryAt m f (vaIndex va l)).present = true)
    (he : ¬(entryAt m f (vaIndex va l)).EndsWalk l) :
    mmuWalk m (l + 1) f va = (mmuWalk m l (entryAt m f (vaIndex va l)).frame va).map
      fun w => { w with upper := entryAt m f (vaIndex va l) :: w.upper } := by
  rw [mmuWalk, if_neg (by simp [h]), if_neg he]

/-- What a walk that finds a page does at its first table. -/
theorem mmuWalk_cases {m : Mem} {l f va : Nat} {w : Walk} (h : mmuWalk m (l + 1) f va = some w) :
    let e := entryAt m f (vaIndex va l)
    e.present = true ∧ (e.EndsWalk l ∧ w = ⟨[], e, l⟩ ∨
      ¬e.EndsWalk l ∧ ∃ w', mmuWalk m l e.frame va = some w' ∧ w = { w' with upper := e :: w'.upper }) := by
  dsimp only
  cases hp : (entryAt m f (vaIndex va l)).present with
  | false =>
    rw [mmuWalk_absent hp] at h
    cases h
  | true =>
    refine ⟨rfl, ?_⟩
    by_cases he : (entryAt m f (vaIndex va l)).EndsWalk l
    · rw [mmuWalk_leaf hp he] at h
      exact .inl ⟨he, (Option.some.inj h).symm⟩
    · rw [mmuWalk_table hp he] at h
      obtain ⟨w', hw', rfl⟩ := Option.map_eq_some_iff.1 h
      exact .inr ⟨he, w', hw', rfl⟩

/-- Two tables from which a walk takes the same step. -/
theorem mmuWalk_step {m m' : Mem} {l f f' va : Nat} (hent : entryAt m' f' (vaIndex va l) = entryAt m f (vaIndex va l))
    (hnext : (entryAt m f (vaIndex va l)).present = true → ¬(entryAt m f (vaIndex va l)).EndsWalk l →
      mmuWalk m' l (entryAt m f (vaIndex va l)).frame va = mmuWalk m l (entryAt m f (vaIndex va l)).frame va) :
    mmuWalk m' (l + 1) f' va = mmuWalk m (l + 1) f va := by
  cases hp : (entryAt m f (vaIndex va l)).present with
  | false => rw [mmuWalk_absent hp, mmuWalk_absent (by rwa [hent])]
  | true =>
    by_cases he : (entryAt m f (vaIndex va l)).EndsWalk l
    · rw [mmuWalk_leaf hp he, mmuWalk_leaf (by rwa [hent]) (by rwa [hent]), hent]
    · rw [mmuWalk_table hp he, mmuWalk_table (by rwa [hent]) (by rwa [hent]), hent, hnext hp he]

section
variable {T : Tables} {m m' : Mem}

/-- The entries of the walk's tables that lead on lead to tables. -/
theorem Tables.WF.child_frame (h : T.WF m) {f i l : Nat} (hf : T.level f = l + 1) (hi : i < 512)
    (hp : (entryAt m f i).present = true) (he : ¬(entryAt m f i).EndsWalk l) :
    T.level (entryAt m f i).frame = l ∧ (T.Placed m → T.pre (entryAt m f i).frame = T.pre f * 512 + i) := by
  rw [Entry.frame_eq (h.reserved f i (by omega) hi)]
  cases l with
  | zero => exact absurd (endsWalk_zero _) he
  | succ l => exact ⟨(h.child f i l hf hi hp he).1, fun hpl => hpl f i l hf hi hp he⟩

/-- A walk depends on the tables of its own level and below. -/
theorem mmuWalk_congr (h : T.WF m) {l : Nat}
    (hsame : ∀ g j, T.level g ≠ 0 → T.level g ≤ l → j < 512 → entryAt m' g j = entryAt m g j) {f va : Nat}
    (hf : T.level f = l) : mmuWalk m' l f va = mmuWalk m l f va := by
  induction l generalizing f with
  | zero => rfl
  | succ l ih =>
    have hi := vaIndex_lt va l
    exact mmuWalk_step (hsame f _ (by omega) (by omega) hi) fun hp he =>
      ih (fun g j h1 h2 => hsame g j h1 (by omega)) (h.child_frame hf hi hp he).1

end

/-- The walk does not end in a page of one of the two large sizes. -/
def NoLarge (m : Mem) (l f va : Nat) : Prop := ∀ w, mmuWalk m l f va = some w → w.level = 0

theorem NoLarge.not_ends {m : Mem} {l f va : Nat} (h : NoLarge m (l + 2) f va)
    (hp : (entryAt m f (vaIndex va (l + 1))).present = true) : ¬(entryAt m f (vaIndex va (l + 1))).EndsWalk (l + 1) :=
  fun he => Nat.succ_ne_zero l (h _ (mmuWalk_leaf hp he))

theorem NoLarge.child {m : Mem} {l f va : Nat} (h : NoLarge m (l + 2) f va)
    (hp : (entryAt m f (vaIndex va (l + 1))).present = true) :
    NoLarge m (l + 1) (entryAt m f (vaIndex va (l + 1))).frame va := by
  intro w hw
  refine h { w with upper := entryAt m f (vaIndex va (l + 1)) :: w.upper } ?_
  rw [mmuWalk_table hp (h.not_ends hp), hw]
  rfl

/-! ## Widened walks -/

theorem Entry.Widens.trans {a b c : Entry} (h : a.Widens b) (h' : b.Widens c) : a.Widens c :=
  ⟨fun hu => h'.user (h.user hu), fun hw => h'.write (h.write hw),
    fun j h1 h2 => (h'.other j h1 h2).trans (h.other j h1 h2)⟩

theorem Walk.Widens.refl (w : Option Walk) : Walk.Widens w w := by
  cases w with
  | none => exact .missing
  | some w => exact .found rfl rfl (List.forall₂_same.2 fun e _ => .refl e)

theorem Walk.Widens.eq_none {b : Option Walk} (h : Walk.Widens none b) : b = none := by
  cases h
  rfl

theorem Entry.Widens.trans_upper {as bs cs : List Entry} (h : List.Forall₂ Entry.Widens as bs)
    (h' : List.Forall₂ Entry.Widens bs cs) : List.Forall₂ Entry.Widens as cs := by
  induction h generalizing cs with
  | nil => exact h'
  | cons h _ ih =>
    cases h' with
    | cons h' hs => exact .cons (h.trans h') (ih hs)

theorem Walk.Widens.trans {a b c : Option Walk} (h : Walk.Widens a b) (h' : Walk.Widens b c) : Walk.Widens a c := by
  cases h with
  | missing => exact h'
  | found h1 h2 h3 =>
    cases h' with
    | found h4 h5 h6 => exact .found (h4.trans h1) (h5.trans h2) (Entry.Widens.trans_upper h3 h6)

theorem Walk.Widens.cons {a b : Option Walk} (h : Walk.Widens a b) {e e' : Entry} (he : e.Widens e') :
    Walk.Widens (a.map fun w => { w with upper := e :: w.upper }) (b.map fun w => { w with upper := e' :: w.upper }) := by
  cases h with
  | missing => exact .missing
  | found h1 h2 h3 => exact .found h1 h2 (.cons he h3)

/-- The upper entries of tables that grew from a zeroed root: none marked `huge`, none that forbids
execution. -/
def Tables.Small (T : Tables) (m : Mem) : Prop :=
  ∀ f i, 2 ≤ T.level f → i < 512 → (entryAt m f i).huge = false ∧ (entryAt m f i).executionDisabled = false

/-! ## A zeroed root -/

/-- The root is the only table. -/
def Tables.only (root : Nat) : Tables := ⟨fun f => if f = root then 4 else 0, fun _ => 0⟩

section
variable {m : Mem} {root : Nat}

theorem Tables.eq_of_only {f : Nat} (h : (Tables.only root).level f ≠ 0) : f = root := by
  by_contra hne
  exact h (if_neg hne)

theorem entryAt_only (hzero : ∀ i, i < 512 → entryAt m root i = 0) {f i : Nat} (hf : (Tables.only root).level f ≠ 0)
    (hi : i < 512) : entryAt m f i = 0 := by
  rw [Tables.eq_of_only hf]
  exact hzero i hi

theorem Tables.only_wf (haligned : root % 4096 = 0) (hzero : ∀ i, i < 512 → entryAt m root i = 0) :
    (Tables.only root).WF m := by
  refine ⟨fun f hf => ?_, fun f i hf hi => ?_, fun f i l hf hi hp => ?_⟩
  · rw [Tables.eq_of_only hf]
    exact haligned
  · rw [entryAt_only hzero hf hi]
    rfl
  · rw [entryAt_only hzero (by omega) hi] at hp
    cases hp

theorem Tables.only_placed (hzero : ∀ i, i < 512 → entryAt m root i = 0) : (Tables.only root).Placed m := by
  intro f i l hf hi hp
  rw [entryAt_only hzero (by omega) hi] at hp
  cases hp

theorem Tables.only_apart {σ : Type} {src : FrameSource σ} {s : σ} (hok : src.Ok s) (hfree : root ∉ src.free s) :
    (Tables.only root).Apart src s := by
  refine ⟨hok, fun f hf => if_neg ?_⟩
  rintro rfl
  exact hfree hf

/-- Nothing is mapped under it. -/
theorem mmuWalk_zeroed (hzero : ∀ i, i < 512 → entryAt m root i = 0) (va : Nat) : mmuWalk m 4 root va = none := by
  apply mmuWalk_absent
  rw [hzero _ (vaIndex_lt va 3)]
  rfl

end

section
variable {σ : Type} {src : FrameSource σ} {T T' : Tables} {m m' : Mem} {s s' : σ} {p f i l c : Nat}

theorem Tables.Small.not_ends (h : T.Small m) (hf : T.level f = l + 2) (hi : i < 512) :
    ¬(entryAt m f i).EndsWalk (l + 1) := by
  rintro (hl | ⟨-, he⟩)
  · exact Nat.succ_ne_zero l hl
  · rw [(h f i (by omega) hi).1] at he
    cases he

theorem Entered.small (h : Entered src p T m s f i l c T' m' s') (hsm : T.Small m) (hf : T.level f = l + 2) (hi : i < 512) :
    T'.Small m' := by
  have hold : ∀ g j, 2 ≤ T.level g → j < 512 →
      (entryAt m' g j).huge = false ∧ (entryAt m' g j).executionDisabled = false := by
    intro g j hg hj
    by_cases hgf : g = f ∧ j = i
    · obtain ⟨h1, h2⟩ := hsm f i (by omega) hi
      rw [hgf.1, hgf.2]
      exact ⟨(h.bits 7 (.inl rfl)).trans h1, (h.bits 63 (.inr rfl)).trans h2⟩
    · rw [h.other g j (by omega) hj hgf]
      exact hsm g j hg hj
  intro g j hg hj
  rcases h.grown with ⟨-, -, rfl, -⟩ | ⟨-, rfl, hzero, -⟩
  · exact hold g j hg hj
  · by_cases hgc : g = c
    · rw [hgc, hzero j hj]
      exact ⟨rfl, rfl⟩
    · exact hold g j (hg.trans_eq (Function.update_of_ne hgc ..)) hj

/-- Entering a table adds no translation and takes none away. -/
theorem Entered.walks (h : Entered src p T m s f i l c T' m' s') (hwf : T.WF m) (hf : T.level f = l + 2) (hi : i < 512)
    (hends : ¬(entryAt m f i).EndsWalk (l + 1)) {k g va : Nat} (hg : T.level g = k) :
    Walk.Widens (mmuWalk m k g va) (mmuWalk m' k g va) := by
  induction k generalizing g with
  | zero => exact .missing
  | succ k ih =>
    have hj := vaIndex_lt va k
    by_cases hgf : g = f ∧ vaIndex va k = i
    · obtain ⟨rfl, rfl⟩ := hgf
      obtain rfl : k = l + 1 := by omega
      have hends' : ¬(entryAt m' g (vaIndex va (l + 1))).EndsWalk (l + 1) := by
        rintro (hl | ⟨h1, h2⟩)
        · exact Nat.succ_ne_zero l hl
        · exact hends (.inr ⟨h1, (h.bits 7 (.inl rfl)).symm.trans h2⟩)
      rcases h.grown with ⟨hp, hw, -⟩ | ⟨hp, -, hzero, -⟩
      · rw [mmuWalk_table hp hends, mmuWalk_table h.present hends', hw.frame]
        exact (ih (hwf.child_frame hg hj hp hends).1).cons hw
      · have hlevel : T'.level g ≠ 0 := by
          rw [(h.le g (by omega)).1]
          omega
        rw [mmuWalk_absent hp, mmuWalk_table h.present hends', Entry.frame_eq (h.wf.reserved g _ hlevel hj), h.pagePpn,
          mmuWalk_absent (by rw [hzero _ (vaIndex_lt va l)]; rfl)]
        exact .missing
    · have hent := h.other g (vaIndex va k) (by omega) hj hgf
      cases hp : (entryAt m g (vaIndex va k)).present with
      | false =>
        rw [mmuWalk_absent hp, mmuWalk_absent (by rwa [hent])]
        exact .missing
      | true =>
        by_cases he : (entryAt m g (vaIndex va k)).EndsWalk k
        · rw [mmuWalk_leaf hp he, mmuWalk_leaf (by rwa [hent]) (by rwa [hent]), hent]
          exact .refl _
        · rw [mmuWalk_table hp he, mmuWalk_table (by rwa [hent]) (by rwa [hent]), hent]
          exact (ih (hwf.child_frame hg hj hp he).1).cons (.refl _)

end

/-! ## The descent -/

section
variable {σ : Type} (alloc : σ → Nat × σ)

/-- The upper levels of `page_in` from the table at `table` down, `level` of them to a page table. -/
def descend (permissions virtAddr : Nat) : (level table : Nat) → Mem → σ → Option Nat × Mem × σ
  | 0, table, m, s => (some table, m, s)
  | level + 1, table, m, s =>
    match enterTable alloc permissions table (vaIndex virtAddr (level + 1)) m s with
    | (none, m, s) => (none, m, s)
    | (some next, m, s) => descend permissions virtAddr level next m s

/-- `page_in` for a 4 KiB page is the descent and the entry in the page table. -/
theorem pageIn_default (pml4 virtAddr physAddr permissions : Nat) (m : Mem) (s : σ) :
    pageIn alloc pml4 virtAddr physAddr defaultPageSize permissions m s =
      match descend alloc permissions virtAddr 3 pml4 m s with
      | (none, m, s) => (-1, m, s)
      | (some pt, m, s) =>
        (0, setEntry m pt (vaIndex virtAddr 0)
          (defaultLeaf permissions physAddr (entryAt m pt (vaIndex virtAddr 0))), s) := by
  obtain ⟨h3, h2, h1, h0⟩ := vaIndex_macros virtAddr
  unfold pageIn
  rw [h3, h2, h1, h0]
  simp only [descend, defaultPageSize, superPs, hugePs]
  rcases enterTable alloc permissions pml4 (vaIndex virtAddr 3) m s with ⟨_ | t3, m3, s3⟩
  · rfl
  · rcases h : enterTable alloc permissions t3 (vaIndex virtAddr 2) m3 s3 with ⟨_ | t2, m2, s2⟩
    · simp [h]
    · rcases h' : enterTable alloc permissions t2 (vaIndex virtAddr 1) m2 s2 with ⟨_ | t1, m1, s1⟩ <;> simp [h, h']

end

/-- The upper entries on the way of `va` from the table `f` of `level + 1` to the page table `c`. -/
inductive Path (m : Mem) (va : Nat) : (level f : Nat) → List Entry → (c : Nat) → Prop
  | here (f : Nat) : Path m va 0 f [] f
  | down {l f c : Nat} {e : Entry} {es : List Entry} : entryAt m f (vaIndex va (l + 1)) = e → e.present = true →
      ¬e.EndsWalk (l + 1) → Path m va l e.frame es c → Path m va (l + 1) f (e :: es) c

theorem Path.walk {m : Mem} {va l f c : Nat} {es : List Entry} (h : Path m va l f es c)
    (hp : (entryAt m c (vaIndex va 0)).present = true) :
    mmuWalk m (l + 1) f va = some ⟨es, entryAt m c (vaIndex va 0), 0⟩ := by
  induction h with
  | here f => exact mmuWalk_leaf hp (endsWalk_zero _)
  | down he hpe hend _ ih =>
    subst he
    rw [mmuWalk_table hpe hend, ih hp]
    rfl

/-- The way to a page table does not depend on the page tables. -/
theorem Path.congr {T : Tables} {m m' : Mem} {va l f c : Nat} {es : List Entry} (h : Path m va l f es c)
    (hwf : T.WF m) (hsame : ∀ g j, 2 ≤ T.level g → j < 512 → entryAt m' g j = entryAt m g j)
    (hf : T.level f = l + 1) : Path m' va l f es c := by
  induction h with
  | here f => exact .here f
  | down he hpe hend _ ih =>
    subst he
    exact .down (hsame _ _ (by omega) (vaIndex_lt ..)) hpe hend
      (ih (hwf.child_frame hf (vaIndex_lt ..) hpe hend).1)

/-- What `page_in` asks of the entries above the page table. -/
structure Entry.Allows (p : Nat) (e : Entry) : Prop where
  user : permBit p userAccessShift = true → e.userAccess = true
  write : permBit p writeableShift = true → e.writeable = true

section
variable {σ : Type} {src : FrameSource σ} {T T' : Tables} {m m' : Mem} {s s' : σ} {p va f i l c : Nat}

theorem Entered.kept (h : Entered src p T m s f i l c T' m' s') {g j : Nat} (hg : T.level g ≠ 0) (hj : j < 512)
    (hp : (entryAt m g j).present = true) : (entryAt m g j).Widens (entryAt m' g j) := by
  by_cases hgf : g = f ∧ j = i
  · obtain ⟨rfl, rfl⟩ := hgf
    rcases h.grown with ⟨-, hw, -⟩ | ⟨hp', -⟩
    · exact hw
    · rw [hp] at hp'
      cases hp'
  · rw [h.other g j hg hj hgf]
    exact .refl _

theorem Entered.free (h : Entered src p T m s f i l c T' m' s') (hs : T.Apart src s) : src.free s' ⊆ src.free s := by
  rcases h.grown with ⟨-, -, -, rfl⟩ | ⟨-, -, -, ha, -⟩
  · exact subset_rfl
  · have hshrinks := src.shrinks s hs.ok
    rwa [ha] at hshrinks

theorem Entered.new (h : Entered src p T m s f i l c T' m' s') {g : Nat} (hg : T'.level g ≠ 0) :
    T.level g ≠ 0 ∨ g ∈ src.free s := by
  rcases h.grown with ⟨-, -, rfl, -⟩ | ⟨-, rfl, -, -, hin⟩
  · exact .inl hg
  · by_cases hgc : g = c
    · rw [hgc]
      exact .inr hin
    · exact .inl (fun h0 => hg ((Function.update_of_ne hgc ..).trans h0))

/-- A page that is found from the entered table on was found before, from the table that its entry names. -/
theorem Entered.walk_old (h : Entered src p T m s f (vaIndex va (l + 1)) l c T' m' s') (hwf : T.WF m)
    (hf : T.level f = l + 2) {w : Walk} (hw : mmuWalk m' (l + 1) c va = some w) :
    (entryAt m f (vaIndex va (l + 1))).present = true ∧
      mmuWalk m (l + 1) (entryAt m f (vaIndex va (l + 1))).frame va = some w := by
  rcases h.grown with ⟨hp, hwiden, rfl, -⟩ | ⟨-, -, hzero, -⟩
  · have hlevel : T'.level f ≠ 0 := by omega
    have hc : c = (entryAt m f (vaIndex va (l + 1))).frame := by
      rw [← h.pagePpn, hwiden.pagePpn, Entry.frame_eq (hwf.reserved f _ hlevel (vaIndex_lt ..))]
    have hsame : mmuWalk m' (l + 1) c va = mmuWalk m (l + 1) c va :=
      mmuWalk_congr hwf (fun g j h1 h2 hj => h.other g j h1 hj (by rintro ⟨rfl, -⟩; omega)) h.level
    rw [hsame, hc] at hw
    exact ⟨hp, hw⟩
  · rw [mmuWalk_absent (by rw [hzero _ (vaIndex_lt va l)]; rfl)] at hw
    cases hw

/-- Below the entered table no large page appears on the way. -/
theorem Entered.noLarge (h : Entered src p T m s f (vaIndex va (l + 1)) l c T' m' s') (hwf : T.WF m)
    (hf : T.level f = l + 2) (hlarge : NoLarge m (l + 2) f va) : NoLarge m' (l + 1) c va := by
  intro w hw
  obtain ⟨hp, hold⟩ := h.walk_old hwf hf hw
  exact hlarge.child hp w hold

end

/-- Tables were entered and allocations failed, one after the other: what that leaves true. -/
structure Extends {σ : Type} (src : FrameSource σ) (T : Tables) (m : Mem) (s : σ) (T' : Tables) (m' : Mem) (s' : σ) :
    Prop where
  le : T.Le T'
  wf : T.WF m → T'.WF m'
  placed : T.Placed m → T'.Placed m'
  apart : T.Apart src s → T'.Apart src s'
  free : T.Apart src s → src.free s' ⊆ src.free s
  /-- every new table was a free frame -/
  new : T.Apart src s → ∀ g, T'.level g ≠ 0 → T.level g ≠ 0 ∨ g ∈ src.free s
  /-- only tables are written -/
  footprint : ∀ a, T'.level (a / 4096 * 4096) = 0 → m' a = m a
  /-- present entries stay, with at least their rights -/
  kept : ∀ g j, T.level g ≠ 0 → j < 512 → (entryAt m g j).present = true → (entryAt m g j).Widens (entryAt m' g j)

section
variable {σ : Type} {src : FrameSource σ} {T T₁ T' : Tables} {m m₁ m' : Mem} {s s₁ s' : σ} {p f i l c : Nat}

theorem Extends.refl (T : Tables) (m : Mem) (s : σ) : Extends src T m s T m s :=
  ⟨.refl _, id, id, id, fun _ => subset_rfl, fun _ _ => .inl, fun _ _ => rfl, fun _ _ _ _ _ => .refl _⟩

theorem Extends.failed (T : Tables) (m : Mem) (s : σ) : Extends src T m s T m (src.alloc s).2 :=
  ⟨.refl _, id, id, fun hs => ⟨src.ok _ hs.ok, fun g hg => hs.free g (src.shrinks _ hs.ok hg)⟩,
    fun hs => src.shrinks _ hs.ok, fun _ _ => .inl, fun _ _ => rfl, fun _ _ _ _ _ => .refl _⟩

theorem Extends.trans (h : Extends src T m s T₁ m₁ s₁) (h' : Extends src T₁ m₁ s₁ T' m' s') :
    Extends src T m s T' m' s' := by
  refine ⟨h.le.trans h'.le, h'.wf ∘ h.wf, h'.placed ∘ h.placed, h'.apart ∘ h.apart,
    fun hs => (h'.free (h.apart hs)).trans (h.free hs), fun hs g hg => ?_, fun a ha => ?_, fun g j hg hj hp => ?_⟩
  · rcases h'.new (h.apart hs) g hg with hg | hg
    · exact h.new hs g hg
    · exact .inr (h.free hs hg)
  · rw [h'.footprint a ha]
    refine h.footprint a ?_
    by_contra h0
    exact h0 ((h'.le _ h0).1.symm.trans ha)
  · have hw := h.kept g j hg hj hp
    exact hw.trans (h'.kept g j (by rwa [(h.le g hg).1]) hj (by rwa [hw.present]))

theorem Entered.toExtends (h : Entered src p T m s f i l c T' m' s') : Extends src T m s T' m' s' :=
  ⟨h.le, fun _ => h.wf, fun hpl => (h.placed hpl).1, fun _ => h.apart, h.free, fun _ _ => h.new, h.footprint,
    fun _ _ => h.kept⟩

end

/-- How a descent from the table `f` of level `l + 1` goes: through the tables it enters, to the page table
it names or to the allocation that fails. -/
inductive Descends {σ : Type} (src : FrameSource σ) (p va : Nat) :
    (l f : Nat) → Tables → Mem → σ → Option Nat → Tables → Mem → σ → Prop
  | here (f : Nat) (T : Tables) (m : Mem) (s : σ) : Descends src p va 0 f T m s (some f) T m s
  | failed {l f : Nat} {T : Tables} {m : Mem} {s : σ} : (entryAt m f (vaIndex va (l + 1))).present = false →
      (src.alloc s).1 = frameAllocFailed → Descends src p va (l + 1) f T m s none T m (src.alloc s).2
  | enter {l f c : Nat} {T T₁ T' : Tables} {m m₁ m' : Mem} {s s₁ s' : σ} {r : Option Nat} :
      Entered src p T m s f (vaIndex va (l + 1)) l c T₁ m₁ s₁ → Descends src p va l c T₁ m₁ s₁ r T' m' s' →
        Descends src p va (l + 1) f T m s r T' m' s'

/-- Outside large pages `descend` does so. -/
theorem descend_spec {σ : Type} {src : FrameSource σ} {p va : Nat} (l : Nat) {T : Tables} {m : Mem} {s : σ} {f : Nat}
    (hwf : T.WF m) (hs : T.Apart src s) (hf : T.level f = l + 1) (hlarge : NoLarge m (l + 1) f va) :
    ∃ r m' s' T', descend src.alloc p va l f m s = (r, m', s') ∧ Descends src p va l f T m s r T' m' s' := by
  induction l generalizing f m s T with
  | zero => exact ⟨some f, m, s, T, rfl, .here f T m s⟩
  | succ l ih =>
    have hi := vaIndex_lt va (l + 1)
    rcases enterTable_spec (p := p) hwf hs hf hi hlarge.not_ends with
      ⟨c, m₁, T₁, s₁, henter, hent⟩ | ⟨henter, hp, ha⟩
    · obtain ⟨r, m', s', T', hdesc, hd⟩ := ih hent.wf hent.apart hent.level (hent.noLarge hwf hf hlarge)
      exact ⟨r, m', s', T', by rw [descend, henter]; exact hdesc, .enter hent hd⟩
    · exact ⟨none, m, _, T, by rw [descend, henter], .failed hp ha⟩

/-! ## What a descent keeps -/

section
variable {σ : Type} {src : FrameSource σ} {T T' : Tables} {m m' : Mem} {s s' : σ} {p va f l c : Nat} {r : Option Nat}

namespace Descends

/-- A descent that fails has asked for at most one frame a level, and the last one was refused. -/
theorem refused (h : Descends src p va l f T m s none T' m' s') :
    ∃ n < l, (src.alloc (src.after n s)).1 = frameAllocFailed ∧ s' = src.after (n + 1) s := by
  generalize hr : (none : Option Nat) = r at h
  induction h with
  | here => cases hr
  | failed _ hrefused => exact ⟨0, Nat.succ_pos _, hrefused, rfl⟩
  | enter hent _ ih =>
    obtain ⟨n, hn, hrefused, hafter⟩ := ih hr
    rcases hent.grown with ⟨-, -, -, rfl⟩ | ⟨-, -, -, halloc, -⟩
    · exact ⟨n, hn.trans (Nat.lt_succ_self _), hrefused, hafter⟩
    · obtain rfl := congrArg Prod.snd halloc
      exact ⟨n + 1, Nat.succ_lt_succ hn, hrefused, hafter⟩

theorem toExtends (h : Descends src p va l f T m s r T' m' s') : Extends src T m s T' m' s' := by
  induction h with
  | here => exact .refl ..
  | failed => exact .failed ..
  | enter hent _ ih => exact hent.toExtends.trans ih

theorem le (h : Descends src p va l f T m s r T' m' s') : T.Le T' := h.toExtends.le

theorem wf (h : Descends src p va l f T m s r T' m' s') (hwf : T.WF m) : T'.WF m' := h.toExtends.wf hwf

theorem apart (h : Descends src p va l f T m s r T' m' s') (hs : T.Apart src s) : T'.Apart src s' :=
  h.toExtends.apart hs

theorem free (h : Descends src p va l f T m s r T' m' s') (hs : T.Apart src s) : src.free s' ⊆ src.free s :=
  h.toExtends.free hs

theorem new (h : Descends src p va l f T m s r T' m' s') (hs : T.Apart src s) {g : Nat} (hg : T'.level g ≠ 0) :
    T.level g ≠ 0 ∨ g ∈ src.free s := h.toExtends.new hs g hg

theorem footprint (h : Descends src p va l f T m s r T' m' s') {a : Nat} (ha : T'.level (a / 4096 * 4096) = 0) :
    m' a = m a := h.toExtends.footprint a ha

theorem placed (h : Descends src p va l f T m s r T' m' s') (hpl : T.Placed m) : T'.Placed m' := h.toExtends.placed hpl

theorem kept (h : Descends src p va l f T m s r T' m' s') {g j : Nat} (hg : T.level g ≠ 0) (hj : j < 512)
    (hp : (entryAt m g j).present = true) : (entryAt m g j).Widens (entryAt m' g j) := h.toExtends.kept g j hg hj hp

theorem small (h : Descends src p va l f T m s r T' m' s') (hf : T.level f = l + 1) (hsm : T.Small m) :
    T'.Small m' := by
  induction h with
  | here => exact hsm
  | failed => exact hsm
  | enter hent _ ih => exact ih hent.level (hent.small hsm hf (vaIndex_lt ..))

/-- Tables above `f`, and page tables, are left alone. -/
theorem outer (h : Descends src p va l f T m s r T' m' s') (hf : T.level f = l + 1) {g j : Nat} (hg : T.level g ≠ 0)
    (hgl : l + 1 < T.level g ∨ T.level g = 1) (hj : j < 512) : entryAt m' g j = entryAt m g j := by
  induction h with
  | here => rfl
  | failed => rfl
  | enter hent _ ih =>
    have hlevel := (hent.le g hg).1
    rw [ih hent.level (by rwa [hlevel]) (by omega), hent.other g j hg hj]
    rintro ⟨rfl, -⟩
    omega

/-- No translation appears, and none goes. -/
theorem walks (h : Descends src p va l f T m s r T' m' s') (hwf : T.WF m) (hf : T.level f = l + 1) (hsm : T.Small m)
    {k g va' : Nat} (hg : T.level g = k) : Walk.Widens (mmuWalk m k g va') (mmuWalk m' k g va') := by
  induction h with
  | here => exact .refl _
  | failed => exact .refl _
  | enter hent _ ih =>
    have hi := vaIndex_lt va
    rcases k with _ | k
    · exact .missing
    · exact (hent.walks hwf hf (hi _) (hsm.not_ends hf (hi _)) hg).trans
        (ih hent.wf hent.level (hent.small hsm hf (hi _)) ((hent.le g (by omega)).1.trans hg))

/-- The table named is a page table. -/
theorem reached (h : Descends src p va l f T m s (some c) T' m' s') (hf : T.level f = l + 1) : T'.level c = 1 := by
  generalize hr : some c = r at h
  induction h with
  | here =>
    cases hr
    exact hf
  | failed => cases hr
  | enter hent _ ih => exact ih hent.level hr

/-- It is the one that serves the part of the address space `va` lies in. -/
theorem reached_pre (h : Descends src p va l f T m s (some c) T' m' s') (hpl : T.Placed m) (hl : l ≤ 3)
    (hpre : T.pre f = vaPrefix va (l + 1)) : T'.pre c = vaPrefix va 1 := by
  generalize hr : some c = r at h
  induction h with
  | here =>
    cases hr
    exact hpre
  | failed => cases hr
  | enter hent _ ih =>
    refine ih (hent.placed hpl).1 (by omega) ?_ hr
    rw [(hent.placed hpl).2, hpre, vaPrefix_succ va hl]

/-- The way to it, with the rights that were asked for. -/
theorem path (h : Descends src p va l f T m s (some c) T' m' s') (hf : T.level f = l + 1) (hsm : T.Small m) :
    ∃ es, Path m' va l f es c ∧ ∀ e ∈ es, e.Allows p := by
  generalize hr : some c = r at h
  induction h with
  | here =>
    cases hr
    exact ⟨[], .here c, by simp⟩
  | failed => cases hr
  | @enter l f c₁ T T₁ T' m m₁ m' s s₁ s' r hent hd ih =>
    have hi := vaIndex_lt va (l + 1)
    have hsm₁ := hent.small hsm hf hi
    have hlevel := (hent.le f (by omega)).1
    obtain ⟨es, hes, hall⟩ := ih hent.level hsm₁ hr
    have hsame : entryAt m' f (vaIndex va (l + 1)) = entryAt m₁ f (vaIndex va (l + 1)) :=
      hd.outer hent.level (by omega) (by omega) hi
    have hframe : (entryAt m₁ f (vaIndex va (l + 1))).frame = c₁ := by
      rw [Entry.frame_eq (hent.wf.reserved f _ (by omega) hi), hent.pagePpn]
    refine ⟨_ :: es, .down hsame hent.present (hsm₁.not_ends (hlevel.trans hf) hi) (by rwa [hframe]), ?_⟩
    rintro e he
    rcases List.mem_cons.1 he with rfl | he
    · exact ⟨hent.user, hent.write⟩
    · exact hall e he

end Descends

end

/-! ## `page_in` for 4 KiB pages -/

section
variable {p pa : Nat} {e : Entry}

theorem defaultLeaf_present : (defaultLeaf p pa e).present = true := getLsbD_setBit _ 0 true (by decide)

theorem defaultLeaf_reserved (he : e.reserved = 0) : (defaultLeaf p pa e).reserved = 0 := by
  rw [← he]
  apply BitVec.eq_of_getLsbD_eq
  intro j hj
  simp (disch := omega) only [defaultLeaf, applyLeafPerms, Entry.setPresent, Entry.setDirty, Entry.setAccessed,
    Entry.setExecutionDisabled, Entry.setCacheDisabled, Entry.setWriteThrough, Entry.setWriteable,
    Entry.setUserAccess, Entry.reserved, BitVec.getLsbD_extractLsb', getLsbD_setBit_of_ne,
    Entry.getLsbD_setPagePpn_of_not]

end

/-- What a call of `page_in` for a 4 KiB page does: the descent fails, or the entry of the page is written. -/
inductive PagedIn {σ : Type} (src : FrameSource σ) (pml4 va pa p : Nat) (T : Tables) (m : Mem) (s : σ) :
    Int → Tables → Mem → σ → Prop
  | failed {T' : Tables} {m' : Mem} {s' : σ} : Descends src p va 3 pml4 T m s none T' m' s' →
      PagedIn src pml4 va pa p T m s (-1) T' m' s'
  | mapped {c : Nat} {T' : Tables} {m' : Mem} {s' : σ} : Descends src p va 3 pml4 T m s (some c) T' m' s' →
      PagedIn src pml4 va pa p T m s 0 T'
        (setEntry m' c (vaIndex va 0) (defaultLeaf p pa (entryAt m' c (vaIndex va 0)))) s'

section
variable {σ : Type} {src : FrameSource σ} {T T' : Tables} {m m' : Mem} {s s' : σ} {pml4 va pa p c : Nat} {r : Int}

/-- Outside large pages `page_in` does so. -/
theorem pageIn_spec (hwf : T.WF m) (hs : T.Apart src s) (hroot : T.level pml4 = 4) (hlarge : NoLarge m 4 pml4 va) :
    ∃ r m' s' T', pageIn src.alloc pml4 va pa defaultPageSize p m s = (r, m', s') ∧
      PagedIn src pml4 va pa p T m s r T' m' s' := by
  obtain ⟨r, m', s', T', hdesc, hd⟩ := descend_spec (p := p) 3 hwf hs hroot hlarge
  rw [pageIn_default, hdesc]
  cases r with
  | none => exact ⟨-1, m', s', T', rfl, .failed hd⟩
  | some c => exact ⟨0, _, s', T', rfl, .mapped hd⟩

/-- Writing an entry of a page table. -/
theorem setLeaf_of_ne (hwf : T.WF m) {i : Nat} {e : Entry} (hc : T.level c = 1) (hi : i < 512) {g j : Nat}
    (hg : 2 ≤ T.level g) (hj : j < 512) : entryAt (setEntry m c i e) g j = entryAt m g j := by
  rw [entryAt_setEntry (hwf.aligned c (by omega)) (hwf.aligned g (by omega)) hi hj, if_neg]
  rintro ⟨rfl, -⟩
  omega

theorem Tables.WF.setLeaf (hwf : T.WF m) {i : Nat} {e : Entry} (hc : T.level c = 1) (hi : i < 512)
    (he : e.reserved = 0) : T.WF (Memory.setEntry m c i e) :=
  hwf.setEntry hc hi he fun _ hend => absurd (endsWalk_zero e) hend

theorem Tables.Placed.setLeaf (hpl : T.Placed m) (hwf : T.WF m) {i : Nat} {e : Entry} (hc : T.level c = 1)
    (hi : i < 512) : T.Placed (Memory.setEntry m c i e) :=
  hpl.setEntry hwf hc hi fun _ hend => absurd (endsWalk_zero e) hend

namespace PagedIn

theorem le (h : PagedIn src pml4 va pa p T m s r T' m' s') : T.Le T' := by
  cases h with
  | failed hd => exact hd.le
  | mapped hd => exact hd.le

theorem apart (h : PagedIn src pml4 va pa p T m s r T' m' s') (hs : T.Apart src s) : T'.Apart src s' := by
  cases h with
  | failed hd => exact hd.apart hs
  | mapped hd => exact hd.apart hs

theorem free (h : PagedIn src pml4 va pa p T m s r T' m' s') (hs : T.Apart src s) : src.free s' ⊆ src.free s := by
  cases h with
  | failed hd => exact hd.free hs
  | mapped hd => exact hd.free hs

theorem new (h : PagedIn src pml4 va pa p T m s r T' m' s') (hs : T.Apart src s) {g : Nat} (hg : T'.level g ≠ 0) :
    T.level g ≠ 0 ∨ g ∈ src.free s := by
  cases h with
  | failed hd => exact hd.new hs hg
  | mapped hd => exact hd.new hs hg

theorem wf (h : PagedIn src pml4 va pa p T m s r T' m' s') (hwf : T.WF m) (hroot : T.level pml4 = 4) :
    T'.WF m' := by
  cases h with
  | failed hd => exact hd.wf hwf
  | mapped hd =>
    have hc := hd.reached hroot
    have hi := vaIndex_lt va 0
    exact (hd.wf hwf).setLeaf hc hi (defaultLeaf_reserved ((hd.wf hwf).reserved _ _ (by omega) hi))

theorem placed (h : PagedIn src pml4 va pa p T m s r T' m' s') (hwf : T.WF m) (hroot : T.level pml4 = 4)
    (hpl : T.Placed m) : T'.Placed m' := by
  cases h with
  | failed hd => exact hd.placed hpl
  | mapped hd => exact (hd.placed hpl).setLeaf (hd.wf hwf) (hd.reached hroot) (vaIndex_lt ..)

/-- Only tables are written. -/
theorem footprint (h : PagedIn src pml4 va pa p T m s r T' m' s') (hwf : T.WF m) (hroot : T.level pml4 = 4) {a : Nat}
    (ha : T'.level (a / 4096 * 4096) = 0) : m' a = m a := by
  cases h with
  | failed hd => exact hd.footprint ha
  | mapped hd =>
    have hc := hd.reached hroot
    rw [setEntry_of_ne ((hd.wf hwf).aligned _ (by omega)) (vaIndex_lt ..) (by rintro rfl; omega)]
    exact hd.footprint ha

/-- Present entries above the page tables stay, with at least their rights. -/
theorem kept (h : PagedIn src pml4 va pa p T m s r T' m' s') (hwf : T.WF m) (hroot : T.level pml4 = 4) {g j : Nat}
    (hg : 2 ≤ T.level g) (hj : j < 512) (hp : (entryAt m g j).present = true) :
    (entryAt m g j).Widens (entryAt m' g j) := by
  cases h with
  | failed hd => exact hd.kept (by omega) hj hp
  | mapped hd =>
    rw [setLeaf_of_ne (hd.wf hwf) (hd.reached hroot) (vaIndex_lt ..) (by rwa [(hd.le g (by omega)).1]) hj]
    exact hd.kept (by omega) hj hp

end PagedIn

end

end Icarus.Memory
