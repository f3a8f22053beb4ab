/-
Single calls of `page_in` for 4 KiB pages through a root whose tables may hold large pages elsewhere: the leaf of every
page that was mapped says what the call asked for, and memory that is neither a table under the root nor free is left
alone.
-/
import Icarus.Memory.LargePages
import Icarus.Memory.PageMap
import Icarus.Memory.TableRuns

namespace Icarus.Memory

open Icarus.Base

/-! ## Tables under a root -/

/-- `g` is the table `f` of level `l`, or a table that its entries lead to. -/
inductive LeadsTo (m : Mem) : (l f g : Nat) → Prop
  | here (l f : Nat) : LeadsTo m (l + 1) f f
  | down {l f i g : Nat} : i < 512 → (entryAt m f i).present = true → ¬(entryAt m f i).EndsWalk (l + 1) →
      LeadsTo m (l + 1) (entryAt m f i).frame g → LeadsTo m (l + 2) f g

open Classical in
/-- The tables among those of `T` that the root leads to. -/
noncomputable def Tables.under (T : Tables) (m : Mem) (root : Nat) : Tables where
  level g := if LeadsTo m 4 root g then T.level g else 0
  pre := T.pre

section
variable {T : Tables} {m : Mem} {l k f g i root : Nat}

theorem LeadsTo.step (h : LeadsTo m l f g) (hwf : T.WF m) (hf : T.level f = l) (hg : T.level g = k + 2) (hi : i < 512)
    (hp : (entryAt m g i).present = true) (he : ¬(entryAt m g i).EndsWalk (k + 1)) :
    LeadsTo m l f (entryAt m g i).frame := by
  induction h with
  | here l f =>
    obtain rfl : l = k + 1 := by omega
    exact .down hi hp he (.here k _)
  | down hi' hp' he' _ ih => exact .down hi' hp' he' (ih (hwf.child_frame hf hi' hp' he').1 hg hp he)

theorem LeadsTo.level_ne (h : LeadsTo m l f g) (hwf : T.WF m) (hf : T.level f = l) :
    T.level g ≠ 0 := by
  induction h with
  | here l f => omega
  | down hi hp he _ ih => exact ih (hwf.child_frame hf hi hp he).1

theorem Tables.under_level (h : (T.under m root).level g ≠ 0) :
    LeadsTo m 4 root g ∧ (T.under m root).level g = T.level g := by
  by_cases hl : LeadsTo m 4 root g
  · exact ⟨hl, if_pos hl⟩
  · exact absurd (if_neg hl) h

theorem Tables.under_level_of_not (h : ¬LeadsTo m 4 root g) : (T.under m root).level g = 0 := if_neg h

theorem Tables.under_level_le (h : T.level g = 0) : (T.under m root).level g = 0 := by
  by_contra hne
  rw [(under_level hne).2] at hne
  exact hne h

/-- The way of an entry under the root stays under it. -/
theorem Tables.under_child (hwf : T.WF m) (hroot : T.level root = 4) (hg : (T.under m root).level g = k + 2)
    (hi : i < 512) (hp : (entryAt m g i).present = true) (he : ¬(entryAt m g i).EndsWalk (k + 1)) :
    T.level g = k + 2 ∧ (T.under m root).level ((entryAt m g i).pagePpn * 4096) = k + 1 ∧
      (entryAt m g i).pagePpn < 2 ^ 19 := by
  obtain ⟨hlead, hlevel⟩ := under_level (show (T.under m root).level g ≠ 0 by omega)
  have hgT : T.level g = k + 2 := hlevel.symm.trans hg
  have hchild := hlead.step hwf hroot hgT hi hp he
  rw [Entry.frame_eq (hwf.reserved g i (by omega) hi)] at hchild
  obtain ⟨h1, h2⟩ := hwf.child g i k hgT hi hp he
  exact ⟨hgT, (if_pos hchild).trans h1, h2⟩

end

section
variable {σ : Type} {src : FrameSource σ} {pml4 : Nat} {T : Tables} {m : Mem} {s : σ}

/-- The tables under the root are built as all of them are. -/
theorem Built.under (h : Built src pml4 T m s) : Built src pml4 (T.under m pml4) m s := by
  have hlevel : ∀ g, (T.under m pml4).level g ≠ 0 → T.level g ≠ 0 := by
    intro g hg
    rwa [← (Tables.under_level hg).2]
  refine ⟨⟨fun g hg => h.wf.aligned g (hlevel g hg), fun g i hg => h.wf.reserved g i (hlevel g hg), ?_⟩, ?_,
    fun g i hg => h.blank g i (hlevel g hg), ⟨h.apart.ok, fun g hg => Tables.under_level_le (h.apart.free g hg)⟩, ?_,
    h.rootPre⟩
  · intro g i k hg hi hp he
    exact (Tables.under_child h.wf h.root hg hi hp he).2
  · intro g i k hg hi hp he
    exact h.placed g i k (Tables.under_child h.wf h.root hg hi hp he).1 hi hp he
  · exact (if_pos (.here 3 pml4)).trans h.root

/-- Memory that keeps every table. -/
theorem Built.congr (h : Built src pml4 T m s) {m' : Mem} {s' : σ} (hs' : T.Apart src s')
    (hsame : ∀ g j, T.level g ≠ 0 → j < 512 → entryAt m' g j = entryAt m g j) : Built src pml4 T m' s' := by
  refine ⟨Tables.WF.congr hsame h.wf, fun g i k hg hi => ?_, fun g i hg hi => ?_, hs', h.root, h.rootPre⟩
  · rw [hsame g i (by omega) hi]
    exact h.placed g i k hg hi
  · rw [hsame g i hg hi]
    exact h.blank g i hg hi

/-! ## One call -/

/-- Frames that are no tables and are not free stay so, and nothing is written to them. -/
def Spares {σ : Type} (src : FrameSource σ) (T : Tables) (m : Mem) (s : σ) (T' : Tables) (m' : Mem) (s' : σ) : Prop :=
  ∀ x, T.level x = 0 → x ∉ src.free s →
    T'.level x = 0 ∧ x ∉ src.free s' ∧ ∀ a, a / 4096 * 4096 = x → m' a = m a

end

section
variable {σ : Type} {src : FrameSource σ} {pml4 va pa p stop : Nat} {T T' T'' : Tables} {m m' m'' : Mem} {s s' s'' : σ}
variable {r : Int}

theorem Spares.refl (T : Tables) (m : Mem) (s : σ) : Spares src T m s T m s := fun _ h1 h2 => ⟨h1, h2, fun _ _ => rfl⟩

theorem Spares.trans (h : Spares src T m s T' m' s') (h' : Spares src T' m' s' T'' m'' s'') :
    Spares src T m s T'' m'' s'' := by
  intro x h1 h2
  obtain ⟨h3, h4, h5⟩ := h x h1 h2
  obtain ⟨h6, h7, h8⟩ := h' x h3 h4
  exact ⟨h6, h7, fun a ha => (h8 a ha).trans (h5 a ha)⟩

theorem Extends.spares (h : Extends src T m s T' m' s') (hs : T.Apart src s) : Spares src T m s T' m' s' := by
  intro x h1 h2
  have hlevel : T'.level x = 0 := by
    by_contra hne
    rcases h.new hs x hne with h0 | hin
    · exact h0 h1
    · exact h2 hin
  refine ⟨hlevel, fun hin => h2 (h.free hs hin), ?_⟩
  rintro a rfl
  exact h.footprint a hlevel

theorem PagedTo.spares (h : PagedTo src pml4 va pa p stop T m s r T' m' s') (hT : Built src pml4 T m s)
    (hstop : stop ≤ 2) : Spares src T m s T' m' s' := by
  have hsum : stop + (3 - stop) + 1 = 4 := by omega
  cases h with
  | failed hd => exact hd.toExtends.spares hT.apart
  | @mapped c T' m₁ s' hd =>
    have hlevel := hd.reached (hT.root.trans hsum.symm)
    intro x h1 h2
    obtain ⟨h3, h4, h5⟩ := hd.toExtends.spares hT.apart x h1 h2
    refine ⟨h3, h4, fun a ha => ?_⟩
    rw [← h5 a ha]
    refine setEntry_of_ne ((hd.built hT).wf.aligned c (by omega)) (vaIndex_lt ..) ?_
    rintro hac
    rw [ha] at hac
    rw [hac] at h3
    omega

/-- A call takes frames only. -/
theorem pageIn_free (h : Built src pml4 T m s) (hlarge : NoLarger 0 m 4 pml4 va) :
    src.free (pageIn src.alloc pml4 va pa defaultPageSize p m s).2.2 ⊆ src.free s := by
  have hzero : leafLevel defaultPageSize = 0 := by decide
  obtain ⟨r, m', s', T', he, hpaged⟩ := pageIn_paged va pa p defaultPageSize h (by rwa [hzero])
  rw [he]
  cases hpaged with
  | failed hd => exact hd.toExtends.free h.apart
  | mapped hd => exact hd.toExtends.free h.apart

end

/-- The walk ends in the page table with what the call asked for. -/
structure Walk.LeafOf (w : Walk) (c : MapCall) : Prop where
  level : w.level = 0
  leaf : w.leaf.MapsAs c

theorem Walk.EndsIn.leafOf {w : Walk} {c : MapCall} (h : w.EndsIn 0 c.permissions c.physAddr) : w.LeafOf c := by
  obtain ⟨hlevel, e, he, hleaf⟩ := h
  refine ⟨hlevel, ?_⟩
  rw [hleaf]
  exact defaultLeaf_mapsAs he c

theorem Walk.Widens.leafOf {a : Walk} {b : Option Walk} (h : Walk.Widens (some a) b) {c : MapCall} (ha : a.LeafOf c) :
    ∃ w, b = some w ∧ w.LeafOf c := by
  cases h with
  | found h1 h2 h3 => exact ⟨_, rfl, h2.trans ha.level, by rw [h1]; exact ha.leaf⟩

/-- The frame of a page is the one its call named. -/
theorem Walk.LeafOf.frame {w : Walk} {c : MapCall} (h : w.LeafOf c) (hpa : c.physAddr % 4096 = 0)
    (hlt : c.physAddr < 2 ^ 40) (va : Nat) : w.frame va = c.physAddr := by
  unfold Walk.frame
  rw [h.level, Entry.frame_eq h.leaf.reserved, h.leaf.pagePpn]
  omega

/-! ## Calls -/

/-- Since the memory was `m₀` the pages of `map` were mapped as their calls say, and every other walk is what it was but
for rights of upper entries. -/
structure PageCalls {σ : Type} (src : FrameSource σ) (pml4 : Nat) (m₀ : Mem) (map : PageMap) (T : Tables) (m : Mem)
    (s : σ) : Prop where
  built : Built src pml4 T m s
  mapped : ∀ va c, map (pageOf va) = some c → ∃ w, mmuWalk m 4 pml4 va = some w ∧ w.LeafOf c
  kept : ∀ va, map (pageOf va) = none → Walk.Widens (mmuWalk m₀ 4 pml4 va) (mmuWalk m 4 pml4 va)

namespace PageCalls

section
variable {σ : Type} {src : FrameSource σ} {pml4 : Nat} {m₀ m : Mem} {map : PageMap} {T : Tables} {s : σ}

theorem start (h : Built src pml4 T m s) : PageCalls src pml4 m (fun _ => none) T m s :=
  ⟨h, fun _ _ hc => (nomatch hc), fun _ _ => .refl _⟩

theorem under (h : PageCalls src pml4 m₀ map T m s) : PageCalls src pml4 m₀ map (T.under m pml4) m s :=
  ⟨h.built.under, h.mapped, h.kept⟩

/-- What is written to frames that are no tables changes no page. -/
theorem write (h : PageCalls src pml4 m₀ map T m s) {m' : Mem} {s' : σ} (hs' : T.Apart src s')
    (hm : ∀ a, T.level (a / 4096 * 4096) ≠ 0 → m' a = m a) : PageCalls src pml4 m₀ map T m' s' := by
  have hsame : ∀ g j, T.level g ≠ 0 → j < 512 → entryAt m' g j = entryAt m g j := by
    intro g j hg hj
    have haligned := h.built.wf.aligned g hg
    refine Mem.load_congr fun a h1 h2 => hm a ?_
    rwa [show a / 4096 * 4096 = g by omega]
  have hwalk : ∀ va, mmuWalk m' 4 pml4 va = mmuWalk m 4 pml4 va := fun va =>
    mmuWalk_congr h.built.wf (fun g j hg _ hj => hsame g j hg hj) h.built.root
  refine ⟨h.built.congr hs' hsame, fun va c hva => ?_, fun va hva => ?_⟩
  · rw [hwalk]
    exact h.mapped va c hva
  · rw [hwalk]
    exact h.kept va hva

/-- Writing to frames that are free changes no page. -/
theorem fill (h : PageCalls src pml4 m₀ map T m s) {m' : Mem} {s' : σ} (hs' : T.Apart src s')
    (hfill : ∀ a, a / 4096 * 4096 ∉ src.free s → m' a = m a) : PageCalls src pml4 m₀ map T m' s' :=
  h.write hs' fun a ha => hfill a fun hin => ha (h.built.apart.free _ hin)

/-- No larger page comes in the way. -/
theorem noLarger (h : PageCalls src pml4 m₀ map T m s) {va : Nat} (hlarge : NoLarger 0 m₀ 4 pml4 va) :
    NoLarger 0 m 4 pml4 va := by
  cases hva : map (pageOf va) with
  | none =>
    have hwiden := h.kept va hva
    intro w hw
    rw [hw] at hwiden
    generalize ha : mmuWalk m₀ 4 pml4 va = a at hwiden
    cases hwiden with
    | found h1 h2 h3 =>
      rw [h2]
      exact hlarge _ ha
  | some c =>
    obtain ⟨w, hw, hleaf⟩ := h.mapped va c hva
    intro w' hw'
    rw [hw] at hw'
    cases hw'
    exact hleaf.level.le

/-- A page that a call mapped is translated to what it asked for. -/
theorem translate_mapped (h : PageCalls src pml4 m₀ map T m s) {va : Nat} {c : MapCall} (hva : map (pageOf va) = some c)
    (haligned : c.physAddr % 4096 = 0) (hlow : c.physAddr < 2 ^ 31) : translate m pml4 va = some c.physAddr := by
  obtain ⟨w, hw, hleaf⟩ := h.mapped va c hva
  unfold translate
  rw [hw, Option.map_some, hleaf.frame haligned (by omega)]

/-- What is true of walks stays true when upper entries get wider. -/
theorem widen (h : PageCalls src pml4 m₀ map T m s) {m' : Mem} {va : Nat}
    (hw : Walk.Widens (mmuWalk m 4 pml4 va) (mmuWalk m' 4 pml4 va)) :
    (map (pageOf va) = none → Walk.Widens (mmuWalk m₀ 4 pml4 va) (mmuWalk m' 4 pml4 va)) ∧
      ∀ c, map (pageOf va) = some c → ∃ w, mmuWalk m' 4 pml4 va = some w ∧ w.LeafOf c := by
  refine ⟨fun hva => (h.kept va hva).trans hw, fun c hva => ?_⟩
  obtain ⟨w, hwalk, hleaf⟩ := h.mapped va c hva
  rw [hwalk] at hw
  exact hw.leafOf hleaf

/-- One call: it fails and leaves the pages as they are, or maps one more. -/
theorem page (h : PageCalls src pml4 m₀ map T m s) (c : MapCall) (hlarge : NoLarger 0 m₀ 4 pml4 c.virtAddr) :
    ∃ r m' s' T', pageIn src.alloc pml4 c.virtAddr c.physAddr defaultPageSize c.permissions m s = (r, m', s') ∧
      Spares src T m s T' m' s' ∧
      (r = -1 ∧ PageCalls src pml4 m₀ map T' m' s' ∨
        r = 0 ∧ PageCalls src pml4 m₀ (Function.update map (pageOf c.virtAddr) (some c)) T' m' s') := by
  have hzero : leafLevel defaultPageSize = 0 := by decide
  obtain ⟨r, m', s', T', he, hpaged⟩ := pageIn_paged c.virtAddr c.physAddr c.permissions defaultPageSize h.built
    (by rw [hzero]; exact h.noLarger hlarge)
  rw [hzero] at hpaged
  obtain ⟨hbuilt, hwalks⟩ := hpaged.walks h.built (Nat.zero_le 2)
  refine ⟨r, m', s', T', he, hpaged.spares h.built (Nat.zero_le 2), ?_⟩
  rcases hwalks with ⟨hr, hall⟩ | ⟨hr, houter, hself⟩
  · exact .inl ⟨hr, hbuilt, fun va => (h.widen (hall va)).2, fun va => (h.widen (hall va)).1⟩
  · refine .inr ⟨hr, hbuilt, fun va d hva => ?_, fun va hva => ?_⟩
    all_goals by_cases hpage : pageOf va = pageOf c.virtAddr
    · rw [hpage, Function.update_self] at hva
      cases hva
      obtain ⟨w, hw, hends⟩ := hself va hpage
      exact ⟨w, hw, hends.leafOf⟩
    · rw [Function.update_of_ne hpage] at hva
      exact (h.widen (houter va hpage)).2 d hva
    · rw [hpage, Function.update_self] at hva
      cases hva
    · rw [Function.update_of_ne hpage] at hva
      exact (h.widen (houter va hpage)).1 hva

end

end PageCalls

end Icarus.Memory
