/-
Which tables `page_in` leaves alone, and runs of it: calls through one root, with frames filled in between.
-/
import Icarus.Memory.Ways

namespace Icarus.Memory

open Icarus.Base

/-! ## Tables out of reach -/

/-- The tables `S` cannot be reached through the slots `I` of `root`: neither these slots nor the other tables
outside `S` lead to one of them. -/
structure Tables.OutOfReach (T : Tables) (m : Mem) (S : Set Nat) (root : Nat) (I : Set Nat) : Prop where
  known : ∀ g ∈ S, T.level g ≠ 0
  start : root ∉ S
  slots : ∀ i ∈ I, i < 512 → (entryAt m root i).present = true → (entryAt m root i).pagePpn * 4096 ∉ S
  inner : ∀ g l j, g ∉ S → g ≠ root → T.level g = l + 2 → j < 512 → (entryAt m g j).present = true →
    (entryAt m g j).pagePpn * 4096 ∉ S

section
variable {σ : Type} {src : FrameSource σ} {T T' : Tables} {m m' : Mem} {s s' : σ} {S I : Set Nat}
variable {p va f i l c root : Nat}

/-- Memory that keeps every table keeps what is out of reach. -/
theorem Tables.OutOfReach.congr (h : T.OutOfReach m S root I) (hroot : T.level root ≠ 0)
    (hsame : ∀ g j, T.level g ≠ 0 → j < 512 → entryAt m' g j = entryAt m g j) : T.OutOfReach m' S root I := by
  refine ⟨h.known, h.start, ?_, ?_⟩
  · intro i hi hi' hp
    rw [hsame root i hroot hi'] at hp ⊢
    exact h.slots i hi hi' hp
  · intro g l j hg hne hl hj hp
    rw [hsame g j (by omega) hj] at hp ⊢
    exact h.inner g l j hg hne hl hj hp

/-- A table entered through one of the slots, or through a table outside, is outside. -/
theorem Tables.OutOfReach.entered (h : T.OutOfReach m S root I) (hent : Entered src p T m s f i l c T' m' s')
    (hs : T.Apart src s) (hroot : T.level root = 4) (hf : T.level f = l + 2)
    (hi : i < 512) (hmay : f = root ∧ i ∈ I ∨ f ≠ root ∧ f ∉ S) :
    T'.OutOfReach m' S root I ∧ c ∉ S ∧ ∀ g ∈ S, ∀ j, j < 512 → entryAt m' g j = entryAt m g j := by
  have hfS : f ∉ S := by
    rcases hmay with ⟨rfl, -⟩ | ⟨-, hfS⟩
    · exact h.start
    · exact hfS
  have hc : c ∉ S := by
    rcases hent.grown with ⟨hp, hw, -⟩ | ⟨-, -, -, -, hin⟩
    · have hppn := hent.pagePpn
      rw [hw.pagePpn] at hppn
      rw [← hppn]
      rcases hmay with ⟨rfl, hiI⟩ | ⟨hne, -⟩
      · exact h.slots i hiI hi hp
      · exact h.inner f l i hfS hne hf hi hp
    · exact fun hcS => h.known c hcS (hs.free c hin)
  refine ⟨⟨?_, h.start, ?_, ?_⟩, hc, ?_⟩
  · intro g hg
    rw [(hent.le g (h.known g hg)).1]
    exact h.known g hg
  · intro j hj hj' hp
    by_cases hfj : root = f ∧ j = i
    · rw [hfj.1, hfj.2, hent.pagePpn]
      exact hc
    · rw [hent.other root j (by omega) hj' hfj] at hp ⊢
      exact h.slots j hj hj' hp
  · intro g k j hg hne hk hj hp
    by_cases hgf : g = f ∧ j = i
    · rw [hgf.1, hgf.2, hent.pagePpn]
      exact hc
    · by_cases hold : T.level g = 0
      · -- a table that is new is still empty
        rcases hent.grown with ⟨-, -, rfl, -⟩ | ⟨-, rfl, hzero, -⟩
        · omega
        · by_cases hgc : g = c
          · rw [hgc, hzero j hj] at hp
            cases hp
          · rw [show (T.insert c (l + 1) (T.pre f * 512 + i)).level g = T.level g from Function.update_of_ne hgc ..] at hk
            omega
      · have hlevel := (hent.le g hold).1
        rw [hent.other g j hold hj hgf] at hp ⊢
        exact h.inner g k j hg hne (by omega) hj hp
  · intro g hg j hj
    refine hent.other g j (h.known g hg) hj ?_
    rintro ⟨rfl, -⟩
    exact hfS hg

/-- So is everything a descent reaches through one of the slots. -/
theorem Tables.OutOfReach.descends {r : Option Nat} (h : T.OutOfReach m S root I) (hd : Descends src p va l f T m s r T' m' s')
    (hs : T.Apart src s) (hroot : T.level root = 4) (hf : T.level f = l + 1)
    (hmay : f = root ∧ vaIndex va l ∈ I ∨ f ≠ root ∧ f ∉ S) (hl : l ≤ 3) :
    T'.OutOfReach m' S root I ∧ (∀ c, r = some c → l ≠ 0 → c ∉ S) ∧
      ∀ g ∈ S, ∀ j, j < 512 → entryAt m' g j = entryAt m g j := by
  induction hd with
  | here =>
    refine ⟨h, ?_, fun _ _ _ _ => rfl⟩
    rintro c - h0
    exact absurd rfl h0
  | failed =>
    refine ⟨h, ?_, fun _ _ _ _ => rfl⟩
    rintro c h0
    cases h0
  | @enter l f c T T₁ T' m m₁ m' s s₁ s' r hent hd ih =>
    have hi := vaIndex_lt va (l + 1)
    obtain ⟨h₁, hc, hsame⟩ := h.entered hent hs hroot hf hi hmay
    have hroot₁ := (hent.le root (by omega)).1.trans hroot
    have hlevel := hent.level
    have hne : c ≠ root := by
      rintro rfl
      omega
    obtain ⟨h₂, hr, hsame'⟩ := ih h₁ hent.apart hroot₁ hlevel (.inr ⟨hne, hc⟩) (by omega)
    refine ⟨h₂, ?_, ?_⟩
    · rintro d rfl -
      by_cases hl0 : l = 0
      · subst hl0
        cases hd
        exact hc
      · exact hr d rfl hl0
    · intro g hg j hj
      exact (hsame' g hg j hj).trans (hsame g hg j hj)

/-- `page_in` through one of the slots writes no table that is out of reach. -/
theorem Tables.OutOfReach.pagedIn {pa : Nat} {r : Int} (h : T.OutOfReach m S root I)
    (hp : PagedIn src root va pa p T m s r T' m' s') (hwf : T.WF m) (hs : T.Apart src s) (hroot : T.level root = 4)
    (hI : vaIndex va 3 ∈ I) :
    T'.OutOfReach m' S root I ∧ ∀ g ∈ S, ∀ j, j < 512 → entryAt m' g j = entryAt m g j := by
  cases hp with
  | failed hd =>
    obtain ⟨h', -, hsame⟩ := h.descends hd hs hroot hroot (.inl ⟨rfl, hI⟩) le_rfl
    exact ⟨h', hsame⟩
  | @mapped c T' m' s' hd =>
    obtain ⟨h', hc, hsame⟩ := h.descends hd hs hroot hroot (.inl ⟨rfl, hI⟩) le_rfl
    have hlevel := hd.reached hroot
    have hwf' := hd.wf hwf
    have hroot' := (hd.le root (by omega)).1.trans hroot
    have hleaf : ∀ g j, T'.level g ≠ 0 → j < 512 → g ≠ c →
        entryAt (setEntry m' c (vaIndex va 0) (defaultLeaf p pa (entryAt m' c (vaIndex va 0)))) g j = entryAt m' g j := by
      intro g j hg hj hne
      rw [entryAt_setEntry (hwf'.aligned c (by omega)) (hwf'.aligned g hg) (vaIndex_lt ..) hj, if_neg]
      rintro ⟨rfl, -⟩
      exact hne rfl
    have hroot_ne : root ≠ c := by
      rintro rfl
      omega
    refine ⟨⟨h'.known, h'.start, ?_, ?_⟩, ?_⟩
    · intro i hi hi' hp
      rw [hleaf root i (by omega) hi' hroot_ne] at hp ⊢
      exact h'.slots i hi hi' hp
    · intro g l j hg hne hl hj hp
      have hgc : g ≠ c := by
        rintro rfl
        omega
      rw [hleaf g j (by omega) hj hgc] at hp ⊢
      exact h'.inner g l j hg hne hl hj hp
    · intro g hg j hj
      have hgc : g ≠ c := by
        rintro rfl
        exact hc g rfl (by decide) hg
      rw [hleaf g j (h'.known g hg) hj hgc]
      exact hsame g hg j hj

end


/-! ## Runs -/

section
variable {T : Tables} {m m' : Mem} (hsame : ∀ g j, T.level g ≠ 0 → j < 512 → entryAt m' g j = entryAt m g j)
include hsame

theorem Tables.WF.congr (h : T.WF m) : T.WF m' := by
  refine ⟨h.aligned, ?_, ?_⟩
  · intro g j hg hj
    rw [hsame g j hg hj]
    exact h.reserved g j hg hj
  · intro g j l hg hj
    rw [hsame g j (by omega) hj]
    exact h.child g j l hg hj

theorem Tables.Placed.congr (h : T.Placed m) : T.Placed m' := by
  intro g j l hg hj
  rw [hsame g j (by omega) hj]
  exact h g j l hg hj

end

/-- Calls of `page_in` for addresses of `V` through one root, and contents written into free frames, some of
which are taken then. -/
inductive TableRun {σ : Type} (src : FrameSource σ) (root : Nat) (V : Set Nat) :
    Tables → Mem → σ → Tables → Mem → σ → Prop
  | refl (T : Tables) (m : Mem) (s : σ) : TableRun src root V T m s T m s
  | page {T T₁ T₂ : Tables} {m m₁ m₂ : Mem} {s s₁ s₂ : σ} {va pa p : Nat} {r : Int} : TableRun src root V T m s T₁ m₁ s₁ →
      va ∈ V → PagedIn src root va pa p T₁ m₁ s₁ r T₂ m₂ s₂ → TableRun src root V T m s T₂ m₂ s₂
  | fill {T T₁ : Tables} {m m₁ m₂ : Mem} {s s₁ : σ} (n : Nat) : TableRun src root V T m s T₁ m₁ s₁ →
      (∀ a, a / 4096 * 4096 ∉ src.free s₁ → m₂ a = m₁ a) → TableRun src root V T m s T₁ m₂ (src.after n s₁)

/-- What is written into free frames is in no table. -/
theorem Tables.Apart.fill_entryAt {σ : Type} {src : FrameSource σ} {T : Tables} {m m' : Mem} {s : σ} {g j : Nat}
    (hs : T.Apart src s) (hwf : T.WF m) (hfill : ∀ a, a / 4096 * 4096 ∉ src.free s → m' a = m a)
    (hg : T.level g ≠ 0) (hj : j < 512) : entryAt m' g j = entryAt m g j := by
  have hga := hwf.aligned g hg
  refine Mem.load_congr fun x h1 h2 => hfill x fun hfree => hg ?_
  rw [show x / 4096 * 4096 = g by omega] at hfree
  exact hs.free g hfree

namespace TableRun

variable {σ : Type} {src : FrameSource σ} {root : Nat} {V : Set Nat} {T T' T'' : Tables} {m m' m'' : Mem}
variable {s s' s'' : σ}

theorem trans (h : TableRun src root V T m s T' m' s') (h' : TableRun src root V T' m' s' T'' m'' s'') :
    TableRun src root V T m s T'' m'' s'' := by
  induction h' with
  | refl => exact h
  | page _ hV hp ih => exact (ih h).page hV hp
  | fill n _ hfill ih => exact (ih h).fill n hfill

theorem mono {W : Set Nat} (h : TableRun src root V T m s T' m' s') (hVW : V ⊆ W) :
    TableRun src root W T m s T' m' s' := by
  induction h with
  | refl => exact .refl ..
  | page _ hV hp ih => exact ih.page (hVW hV) hp
  | fill n _ hfill ih => exact ih.fill n hfill

/-- The tables of a run stay well-formed and apart from what may still be given out. -/
theorem sound (h : TableRun src root V T m s T' m' s') (hwf : T.WF m) (hs : T.Apart src s) (hroot : T.level root = 4) :
    T'.WF m' ∧ T'.Apart src s' ∧ T.Le T' := by
  induction h with
  | refl => exact ⟨hwf, hs, .refl _⟩
  | page _ _ hp ih =>
    obtain ⟨hwf₁, hs₁, hle⟩ := ih hwf hs
    have hroot₁ := (hle root (by omega)).1.trans hroot
    exact ⟨hp.wf hwf₁ hroot₁, hp.apart hs₁, hle.trans hp.le⟩
  | fill n _ hfill ih =>
    obtain ⟨hwf₁, hs₁, hle⟩ := ih hwf hs
    refine ⟨Tables.WF.congr (fun g j => hs₁.fill_entryAt hwf₁ hfill) hwf₁, ⟨src.ok_after hs₁.ok n, ?_⟩, hle⟩
    exact fun f hf => hs₁.free f (src.free_after hs₁.ok n hf)

theorem calls (h : TableRun src root V T m s T' m' s') : ∃ n, s' = src.after n s := by
  induction h with
  | refl => exact ⟨0, rfl⟩
  | page _ _ hp ih =>
    obtain ⟨n, rfl⟩ := ih
    obtain ⟨k, hk⟩ : ∃ k, _ = src.after k (src.after n _) := by
      cases hp with
      | failed hd => exact hd.calls
      | mapped hd => exact hd.calls
    exact ⟨n + k, hk.trans (src.after_add ..).symm⟩
  | fill k _ _ ih =>
    obtain ⟨n, rfl⟩ := ih
    exact ⟨n + k, (src.after_add ..).symm⟩

theorem level_root (h : TableRun src root V T m s T' m' s') (hwf : T.WF m) (hs : T.Apart src s)
    (hroot : T.level root = 4) : T'.level root = 4 :=
  ((h.sound hwf hs hroot).2.2 root (by omega)).1.trans hroot

theorem free (h : TableRun src root V T m s T' m' s') (hwf : T.WF m) (hs : T.Apart src s) (hroot : T.level root = 4) :
    src.free s' ⊆ src.free s := by
  induction h with
  | refl => exact subset_rfl
  | page hrun _ hp ih => exact (hp.free (hrun.sound hwf hs hroot).2.1).trans (ih hwf hs)
  | fill n hrun _ ih => exact (src.free_after (hrun.sound hwf hs hroot).2.1.ok n).trans (ih hwf hs)

theorem clear (h : TableRun src root V T m s T' m' s') (hwf : T.WF m) (hs : T.Apart src s) (hroot : T.level root = 4)
    {va k g : Nat} (hg : T.level g = k + 1) (hclear : Clear m va k g) : Clear m' va k g := by
  induction h with
  | refl => exact hclear
  | page hrun _ hp ih =>
    obtain ⟨hwf₁, -, hle⟩ := hrun.sound hwf hs hroot
    exact hp.clear hwf₁ ((hle root (by omega)).1.trans hroot) ((hle g (by omega)).1.trans hg)
      (ih hwf hs hclear)
  | fill n hrun hfill ih =>
    obtain ⟨hwf₁, hs₁, hle⟩ := hrun.sound hwf hs hroot
    refine (way_congr hwf₁ ?_ ((hle g (by omega)).1.trans hg) (ih hwf hs hclear)).1
    exact fun g' j h1 _ hj => hs₁.fill_entryAt hwf₁ hfill (by omega) hj

/-- A frame that is neither a table nor free keeps what is in it. -/
theorem held (h : TableRun src root V T m s T' m' s') (hwf : T.WF m) (hs : T.Apart src s) (hroot : T.level root = 4)
    {f : Nat} (hf : T.level f = 0) (hfree : f ∉ src.free s) :
    T'.level f = 0 ∧ f ∉ src.free s' ∧ ∀ a, a / 4096 * 4096 = f → m' a = m a := by
  induction h with
  | refl => exact ⟨hf, hfree, fun _ _ => rfl⟩
  | page hrun _ hp ih =>
    obtain ⟨hwf₁, hs₁, hle⟩ := hrun.sound hwf hs hroot
    obtain ⟨hf₁, hfree₁, hsame⟩ := ih hwf hs hfree
    have hf₂ := Classical.byContradiction fun h0 => (hp.new hs₁ h0).elim (fun h1 => h1 hf₁) hfree₁
    refine ⟨hf₂, fun hin => hfree₁ (hp.free hs₁ hin), ?_⟩
    rintro a rfl
    rw [hp.footprint hwf₁ ((hle root (by omega)).1.trans hroot) hf₂]
    exact hsame a rfl
  | fill n hrun hfill ih =>
    obtain ⟨-, hs₁, -⟩ := hrun.sound hwf hs hroot
    obtain ⟨hf₁, hfree₁, hsame⟩ := ih hwf hs hfree
    refine ⟨hf₁, fun hin => hfree₁ (src.free_after hs₁.ok n hin), ?_⟩
    rintro a rfl
    rw [hfill a hfree₁]
    exact hsame a rfl

/-- Tables out of reach through the slots of `V` are not written. -/
theorem outOfReach (h : TableRun src root V T m s T' m' s') (hwf : T.WF m) (hs : T.Apart src s)
    (hroot : T.level root = 4) {S I : Set Nat} (hreach : T.OutOfReach m S root I) (hV : ∀ va ∈ V, vaIndex va 3 ∈ I) :
    T'.OutOfReach m' S root I ∧ ∀ g ∈ S, ∀ j, j < 512 → entryAt m' g j = entryAt m g j := by
  induction h with
  | refl => exact ⟨hreach, fun _ _ _ _ => rfl⟩
  | page hrun hva hp ih =>
    obtain ⟨hwf₁, hs₁, hle⟩ := hrun.sound hwf hs hroot
    obtain ⟨hreach₁, hsame⟩ := ih hwf hs hreach
    obtain ⟨hreach₂, hsame'⟩ := hreach₁.pagedIn hp hwf₁ hs₁ ((hle root (by omega)).1.trans hroot) (hV _ hva)
    exact ⟨hreach₂, fun g hg j hj => (hsame' g hg j hj).trans (hsame g hg j hj)⟩
  | fill n hrun hfill ih =>
    obtain ⟨hwf₁, hs₁, hle⟩ := hrun.sound hwf hs hroot
    obtain ⟨hreach₁, hsame⟩ := ih hwf hs hreach
    have hsame' := fun g j => hs₁.fill_entryAt hwf₁ hfill (g := g) (j := j)
    have hroot₁ := (hle root (by omega)).1.trans hroot
    refine ⟨hreach₁.congr (by omega) hsame', ?_⟩
    intro g hg j hj
    exact (hsame' g j (hreach₁.known g hg) hj).trans (hsame g hg j hj)

theorem placed (h : TableRun src root V T m s T' m' s') (hwf : T.WF m) (hs : T.Apart src s) (hroot : T.level root = 4)
    (hpl : T.Placed m) : T'.Placed m' := by
  induction h with
  | refl => exact hpl
  | page hrun _ hp ih =>
    obtain ⟨hwf₁, -, hle⟩ := hrun.sound hwf hs hroot
    exact hp.placed hwf₁ ((hle root (by omega)).1.trans hroot) (ih hwf hs hpl)
  | fill n hrun hfill ih =>
    obtain ⟨hwf₁, hs₁, -⟩ := hrun.sound hwf hs hroot
    exact Tables.Placed.congr (fun g j => hs₁.fill_entryAt hwf₁ hfill) (ih hwf hs hpl)

/-- In a tree of tables nothing becomes less or more on the way of an address in a slot that no call uses. -/
theorem missing_other (h : TableRun src root V T m s T' m' s') (hwf : T.WF m) (hs : T.Apart src s)
    (hroot : T.level root = 4) (hpl : T.Placed m) (hpre : T.pre root = 0) {va : Nat} (hclear : Clear m va 3 root)
    (hV : ∀ x ∈ V, vaIndex va 3 ≠ vaIndex x 3) : missing m' va 3 root = missing m va 3 root := by
  induction h with
  | refl => rfl
  | page hrun hva hp ih =>
    obtain ⟨hwf₁, -, hle⟩ := hrun.sound hwf hs hroot
    obtain ⟨hlevel, hpre₁⟩ := hle root (by omega)
    rw [hp.missing_other hwf₁ (hrun.placed hwf hs hroot hpl) (hlevel.trans hroot) (hpre₁.trans hpre) (hV _ hva)
      (hrun.clear hwf hs hroot hroot hclear)]
    exact ih hwf hs hpl hclear
  | fill n hrun hfill ih =>
    obtain ⟨hwf₁, hs₁, hle⟩ := hrun.sound hwf hs hroot
    rw [(way_congr hwf₁ (fun g j h1 _ hj => hs₁.fill_entryAt hwf₁ hfill (by omega) hj)
      ((hle root (by omega)).1.trans hroot) (hrun.clear hwf hs hroot hroot hclear)).2]
    exact ih hwf hs hpl hclear

end TableRun

end Icarus.Memory
