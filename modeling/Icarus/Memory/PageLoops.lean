/-
Loops over `page_in` with pages of one size, in which the frame of a page follows from its address: what the walks are
while such a loop is on its way.
-/
import Icarus.Memory.LargePages
import Icarus.Memory.PageMap

namespace Icarus.Memory

open Icarus.Base

/-! ## Translations -/

/-- The physical address of a byte. -/
def translateByte (m : Mem) (pml4 va : Nat) : Option Nat := (translate m pml4 va).map (· + va % 4096)

/-- The bytes of a page have one frame. -/
theorem translate_of_page {m : Mem} {va va' : Nat} (h : pageOf va' = pageOf va) (pml4 : Nat) :
    translate m pml4 va' = translate m pml4 va := by
  unfold translate
  rw [mmuWalk_of_page h le_rfl]
  rcases hw : mmuWalk m 4 pml4 va with _ | w
  · rw [Option.map_none, Option.map_none]
  · have hl := mmuWalk_level_le hw
    simp only [Option.map_some, Option.some.injEq, Walk.frame, Nat.add_left_cancel_iff]
    unfold pageOf vaPrefix at h
    generalize w.level = l at hl ⊢
    interval_cases l <;> omega

theorem translateByte_of_translate {m : Mem} {pml4 va f : Nat} (h : translate m pml4 va = some f) :
    translateByte m pml4 va = some (f + va % 4096) := by
  unfold translateByte
  rw [h]
  rfl

theorem translateByte_eq_some {m : Mem} {pml4 va pa : Nat} (hpage : va % 4096 = pa % 4096) :
    translateByte m pml4 va = some pa ↔ translate m pml4 va = some (pa / 4096 * 4096) := by
  unfold translateByte
  cases translate m pml4 va with
  | none => simp
  | some f =>
    simp only [Option.map_some, Option.some.injEq]
    omega

section
variable {a b : Option Walk} {stop pa va : Nat}

theorem Walk.Widens.level_le (h : Walk.Widens a b) (ha : ∀ w, a = some w → w.level ≤ stop) :
    ∀ w, b = some w → w.level ≤ stop := by
  cases h with
  | missing => simp
  | found h1 h2 h3 =>
    rintro w ⟨⟩
    rw [h2]
    exact ha _ rfl

theorem Walk.Widens.mapsTo (h : Walk.Widens a b) (ha : ∃ w, a = some w ∧ MapsTo stop pa w) :
    ∃ w, b = some w ∧ MapsTo stop pa w := by
  obtain ⟨w, rfl, hw⟩ := ha
  cases h with
  | found h1 h2 h3 =>
    refine ⟨_, rfl, ?_⟩
    unfold MapsTo
    rw [h1, h2]
    exact hw

theorem Walk.Widens.frame (h : Walk.Widens a b) : b.map (fun w => w.frame va) = a.map fun w => w.frame va := by
  cases h with
  | missing => rfl
  | found h1 h2 h3 =>
    simp only [Option.map_some, Walk.frame, h1, h2]

/-- The frames of a page follow each other. -/
theorem MapsTo.frame {w : Walk} (h : MapsTo stop pa w) (hstop : stop ≤ 2) (hpa : pa % 2 ^ (12 + 9 * stop) = 0)
    (hlt : pa < 2 ^ 40) : w.frame va = pa + va % 2 ^ (12 + 9 * stop) / 4096 * 4096 := by
  obtain ⟨rfl, hres, hppn⟩ := h
  unfold Walk.frame
  rw [Entry.frame_eq hres, hppn]
  generalize w.level = l at hstop hpa ⊢
  interval_cases l <;> omega

end

/-! ## The invariant -/

/-- Since the memory was `m₀` the pages of level `stop` in `done` were mapped to their targets, and every other walk is
what it was but for rights of upper entries. -/
structure PagedSet {σ : Type} (src : FrameSource σ) (pml4 stop : Nat) (target : Nat → Nat) (m₀ : Mem) (done : Set Nat)
    (m : Mem) (s : σ) : Prop where
  built : ∃ T, Built src pml4 T m s
  mapped : ∀ va, vaPrefix va stop ∈ done → ∃ w, mmuWalk m 4 pml4 va = some w ∧ MapsTo stop (target (vaPrefix va stop)) w
  kept : ∀ va, vaPrefix va stop ∉ done → Walk.Widens (mmuWalk m₀ 4 pml4 va) (mmuWalk m 4 pml4 va)

section
variable {σ : Type} {src : FrameSource σ} {pml4 stop : Nat} {target : Nat → Nat} {m₀ m : Mem} {done : Set Nat} {s : σ}

namespace PagedSet

theorem start {T : Tables} (h : Built src pml4 T m s) : PagedSet src pml4 stop target m ∅ m s :=
  ⟨⟨T, h⟩, fun _ hva => absurd hva (Set.notMem_empty _), fun _ _ => .refl _⟩

/-- No larger page comes in the way. -/
theorem noLarger (h : PagedSet src pml4 stop target m₀ done m s) {va : Nat} (hlarge : NoLarger stop m₀ 4 pml4 va) :
    NoLarger stop m 4 pml4 va := by
  by_cases hva : vaPrefix va stop ∈ done
  · obtain ⟨w, hw, hmaps⟩ := h.mapped va hva
    intro w' hw'
    rw [hw] at hw'
    cases hw'
    exact hmaps.1.le
  · exact (h.kept va hva).level_le hlarge

/-- One call: it fails and leaves the pages as they are, or maps one more. -/
theorem page (h : PagedSet src pml4 stop target m₀ done m s) (va pageSize p : Nat) (hstop : leafLevel pageSize = stop)
    (hlarge : NoLarger stop m₀ 4 pml4 va) :
    ∃ r m' s', pageIn src.alloc pml4 va (target (vaPrefix va stop)) pageSize p m s = (r, m', s') ∧
      (r = -1 ∧ PagedSet src pml4 stop target m₀ done m' s' ∨
        r = 0 ∧ PagedSet src pml4 stop target m₀ (insert (vaPrefix va stop) done) m' s') := by
  obtain ⟨T, hT⟩ := h.built
  have hnone := h.noLarger hlarge
  rw [← hstop] at hnone
  obtain ⟨r, m', s', T', he, hpaged⟩ := pageIn_paged va (target (vaPrefix va stop)) p pageSize hT hnone
  rw [hstop] at hpaged
  have hle : stop ≤ 2 := hstop ▸ leafLevel_le pageSize
  obtain ⟨hT', hwalks⟩ := hpaged.walks hT hle
  refine ⟨r, m', s', he, ?_⟩
  rcases hwalks with ⟨hr, hall⟩ | ⟨hr, houter, hself⟩
  · exact .inl ⟨hr, ⟨T', hT'⟩, fun va' hva => (hall va').mapsTo (h.mapped va' hva),
      fun va' hva => (h.kept va' hva).trans (hall va')⟩
  · refine .inr ⟨hr, ⟨T', hT'⟩, fun va' hva => ?_, fun va' hva => ?_⟩
    · by_cases hpage : vaPrefix va' stop = vaPrefix va stop
      · rw [hpage]
        obtain ⟨w, hw, hends⟩ := hself va' hpage
        exact ⟨w, hw, hends.mapsTo⟩
      · exact (houter va' hpage).mapsTo (h.mapped va' (hva.resolve_left hpage))
    · rw [Set.mem_insert_iff, not_or] at hva
      exact (h.kept va' hva.2).trans (houter va' hva.1)

end PagedSet

end

end Icarus.Memory
