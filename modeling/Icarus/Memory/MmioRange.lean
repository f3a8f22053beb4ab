/-
What `map_mmio` maps: it rounds the start of the range down and counts the size from there, so that the page of the last
bytes can be left out.
-/
import Icarus.Memory.Mmio
import Icarus.Memory.PageLoops
import Icarus.Memory.PageMap
import Icarus.Memory.TableWrites

namespace Icarus.Memory

open Icarus.Base

/-! ## The window -/

/-- The number of the first page of the window. -/
def windowBase : Nat := 2 ^ 36 - 2 ^ 29

section
variable {p : Nat} (h : p < 2 ^ 40)
include h

theorem mmioPhysToVirt_eq : mmioPhysToVirt p = kernelMmio + p := by
  unfold mmioPhysToVirt
  rw [add64_of_lt (by unfold kernelMmio; omega), Nat.add_comm]

theorem mmio_page : vaPrefix (mmioPhysToVirt p) 0 = windowBase + p / 4096 := by
  rw [mmioPhysToVirt_eq h]
  unfold vaPrefix kernelMmio windowBase
  omega

theorem mmio_offset : mmioPhysToVirt p % 4096 = p % 4096 := by
  rw [mmioPhysToVirt_eq h]
  unfold kernelMmio
  omega

end

/-- The pages of the first `n` bytes from `start` on. -/
def windowPages (start n : Nat) : Set Nat := {page | ∃ j, 4096 * j < n ∧ page = windowBase + start / 4096 + j}

/-- The frame a page of the window is for. -/
def windowFrame (page : Nat) : Nat := (page - windowBase) * 4096

theorem windowPages_zero (start : Nat) : windowPages start 0 = ∅ := by
  ext page
  simp [windowPages]

theorem windowPages_step {start i : Nat} (hi : i % 4096 = 0) :
    insert (windowBase + (start + i) / 4096) (windowPages start i) = windowPages start (i + 4096) := by
  ext page
  simp only [windowPages, Set.mem_insert_iff, Set.mem_ofPred_eq]
  constructor
  · rintro (rfl | ⟨j, hj, rfl⟩)
    · exact ⟨i / 4096, by omega, by omega⟩
    · exact ⟨j, by omega, rfl⟩
  · rintro ⟨j, hj, rfl⟩
    by_cases hlast : j = i / 4096
    · left
      omega
    · exact .inr ⟨j, by omega, rfl⟩

theorem windowPages_end {start size i : Nat} (hi : i % 4096 = 0) (h1 : size ≤ i) (h2 : i < size + 4096) :
    windowPages start i = windowPages start size := by
  ext page
  simp only [windowPages, Set.mem_ofPred_eq]
  constructor
  · rintro ⟨j, hj, rfl⟩
    exact ⟨j, by omega, rfl⟩
  · rintro ⟨j, hj, rfl⟩
    exact ⟨j, by omega, rfl⟩

/-! ## The loop -/

section
variable {σ : Type} {src : FrameSource σ} {cr3 start size flags : Nat} {m₀ m : Mem} {s : σ}

/-- No page larger than 4 KiB lies in the window. -/
def WindowSmall (m : Mem) (cr3 : Nat) : Prop := ∀ p, p < 2 ^ 40 → NoLarger 0 m 4 cr3 (mmioPhysToVirt p)

/-- The loop maps page after page from the rounded start on. -/
theorem mapMmioLoop_paged (flags : Nat) (hstart : start % 4096 = 0) (hrange : start + size < 2 ^ 40)
    (hwindow : WindowSmall m₀ cr3) :
    ∀ (fuel i : Nat) {m : Mem} {s : σ}, i % 4096 = 0 → i < size + 4096 → size ≤ i + 4096 * fuel →
      PagedSet src cr3 0 windowFrame m₀ (windowPages start i) m s →
        ∃ b m' s', mapMmioLoop src.alloc cr3 start size flags fuel i m s = (b, m', s') ∧
          (b = true → PagedSet src cr3 0 windowFrame m₀ (windowPages start size) m' s')
  | 0, i, m, s, hi, hend, hfuel, h => by
    rw [windowPages_end hi (by omega) hend] at h
    exact ⟨true, m, s, rfl, fun _ => h⟩
  | fuel + 1, i, m, s, hi, hend, hfuel, h => by
    unfold mapMmioLoop
    by_cases hlt : i < size
    · have hp : start + i < 2 ^ 40 := by omega
      have hpage := mmio_page hp
      have htarget : windowFrame (vaPrefix (mmioPhysToVirt (start + i)) 0) = start + i := by
        rw [hpage]
        unfold windowFrame
        omega
      obtain ⟨r, m', s', he, hres⟩ := h.page (mmioPhysToVirt (start + i)) defaultPageSize flags
        (by decide) (hwindow _ hp)
      rw [htarget] at he
      rw [if_pos hlt, add64_of_lt (by omega), he]
      dsimp only
      rcases hres with ⟨hr, -⟩ | ⟨hr, hnext⟩
      · exact ⟨false, m', s', if_pos (by omega), fun hb => by cases hb⟩
      · rw [hpage, windowPages_step hi] at hnext
        rw [if_neg (by omega)]
        exact mapMmioLoop_paged flags hstart hrange hwindow fuel (i + 4096) (by omega) (by omega) (by omega) hnext
    · rw [windowPages_end hi (by omega) hend] at h
      exact ⟨true, m, s, if_neg hlt, fun _ => h⟩

end

/-- A call for a page of 4 KiB, or for a page outside the window. -/
def PageCall.SparesWindow (c : PageCall) : Prop :=
  leafLevel c.pageSize = 0 ∨
    ∀ p, p < 2 ^ 40 → vaPrefix (mmioPhysToVirt p) (leafLevel c.pageSize) ≠ vaPrefix c.virtAddr (leafLevel c.pageSize)

section
variable {σ : Type} {src : FrameSource σ} {pml4 : Nat}

theorem WindowSmall.page {T : Tables} {m : Mem} {s : σ} (hT : Built src pml4 T m s) (h : WindowSmall m pml4)
    {c : PageCall} (hlarge : NoLarger (leafLevel c.pageSize) m 4 pml4 c.virtAddr) (hc : c.SparesWindow) :
    ∃ r m' s' T', pageIn src.alloc pml4 c.virtAddr c.physAddr c.pageSize c.permissions m s = (r, m', s') ∧
      Built src pml4 T' m' s' ∧ WindowSmall m' pml4 := by
  obtain ⟨r, m', s', T', he, hpaged⟩ := pageIn_paged c.virtAddr c.physAddr c.permissions c.pageSize hT hlarge
  obtain ⟨hT', hwalks⟩ := hpaged.walks hT (leafLevel_le _)
  refine ⟨r, m', s', T', he, hT', fun p hp => ?_⟩
  rcases hwalks with ⟨-, hall⟩ | ⟨-, houter, hself⟩
  · exact (hall _).level_le (h p hp)
  · by_cases hpage : vaPrefix (mmioPhysToVirt p) (leafLevel c.pageSize) = vaPrefix c.virtAddr (leafLevel c.pageSize)
    · obtain ⟨w, hw, hmaps⟩ := hself _ hpage
      intro w' hw'
      rw [hw] at hw'
      cases hw'
      rcases hc with h0 | hout
      · exact (hmaps.1.trans h0).le
      · exact absurd hpage (hout p hp)
    · exact (houter _ hpage).level_le (h p hp)

/-- The tables that `page_in` builds have only small pages in the window, where no call asks for another one there. -/
theorem WindowSmall.run : ∀ {cs : List PageCall} {T : Tables} {st : Mem × σ}, Built src pml4 T st.1 st.2 →
    WindowSmall st.1 pml4 → Unobstructed src.alloc pml4 cs st → (∀ c ∈ cs, c.SparesWindow) →
      ∃ T', Built src pml4 T' (runCalls src.alloc pml4 cs st).1 (runCalls src.alloc pml4 cs st).2 ∧
        WindowSmall (runCalls src.alloc pml4 cs st).1 pml4
  | [], T, _, hT, h, _, _ => ⟨T, hT, h⟩
  | c :: cs, T, st, hT, h, ⟨hlarge, hrest⟩, hcs => by
    obtain ⟨r, m', s', T', he, hT', h'⟩ := WindowSmall.page hT h hlarge (hcs c List.mem_cons_self)
    rw [he] at hrest
    unfold runCalls
    rw [he]
    exact WindowSmall.run (show Built src pml4 T' (m', s').1 (m', s').2 from hT') h' hrest fun d hd =>
      hcs d (List.mem_cons_of_mem c hd)

end

/-! ## The range -/

/-- Every byte of the range is found at its distance from the result. -/
def MapsRange (m : Mem) (cr3 result physAddr size : Nat) : Prop :=
  ∀ k, k < size → translateByte m cr3 (add64 result k) = some (physAddr + k)

/-- The first page behind those that `map_mmio` maps. -/
def pageLeftOut (physAddr size : Nat) : Nat := alignDown physAddr defaultPageSize + alignUp size defaultPageSize

section
variable {σ : Type} {src : FrameSource σ} {T : Tables} {m : Mem} {s : σ} {cr3 physAddr size flags : Nat}

/-- A call that does not fail gives back the place of the address in the window, and has mapped its pages there. -/
theorem mapMmio_paged (hT : Built src cr3 T m s) (hwindow : WindowSmall m cr3) (hrange : physAddr + size < 2 ^ 40)
    (hret : (mapMmio src.alloc cr3 physAddr size flags m s).1 ≠ frameAllocFailed) :
    ∃ m' s', mapMmio src.alloc cr3 physAddr size flags m s = (mmioPhysToVirt physAddr, m', s') ∧
      PagedSet src cr3 0 windowFrame m (windowPages (physAddr / 4096 * 4096) size) m' s' := by
  have hstart : alignDown physAddr defaultPageSize = physAddr / 4096 * 4096 :=
    alignDown_two_pow (k := 12) (by omega) (by decide)
  obtain ⟨b, m', s', he, hdone⟩ := mapMmioLoop_paged flags
    (show physAddr / 4096 * 4096 % 4096 = 0 from Nat.mul_mod_left ..)
    (show physAddr / 4096 * 4096 + size < 2 ^ 40 by omega) hwindow (size / 4096 + 1) 0 rfl (by omega) (by omega)
    (by rw [windowPages_zero]; exact .start hT)
  have hcall : mapMmio src.alloc cr3 physAddr size flags m s =
      (if b = true then mmioPhysToVirt physAddr else frameAllocFailed, m', s') := by
    unfold mapMmio
    simp only [hstart, show size / defaultPageSize = size / 4096 from rfl, he]
  rw [hcall] at hret ⊢
  obtain rfl : b = true := by
    by_contra hb
    exact hret (if_neg hb)
  rw [if_pos rfl]
  exact ⟨m', s', rfl, hdone rfl⟩

/-- A page that was counted is mapped. -/
theorem PagedSet.translate_window {start p : Nat} {s' : σ} {m' : Mem}
    (h : PagedSet src cr3 0 windowFrame m (windowPages start size) m' s') (hp : p < 2 ^ 40)
    (hmem : vaPrefix (mmioPhysToVirt p) 0 ∈ windowPages start size) :
    translate m' cr3 (mmioPhysToVirt p) = some (p / 4096 * 4096) := by
  obtain ⟨w, hw, hmaps⟩ := h.mapped _ hmem
  have htarget : windowFrame (vaPrefix (mmioPhysToVirt p) 0) = p / 4096 * 4096 := by
    rw [mmio_page hp]
    unfold windowFrame
    omega
  rw [htarget] at hmaps
  unfold translate
  rw [hw, Option.map_some, hmaps.frame (by decide) (by omega) (by omega)]
  simp

/-- The bytes of the range lie in pages that were counted as far as the rounded size reaches from the rounded start. -/
theorem mem_windowPages_iff {p : Nat} (hp : p < 2 ^ 40) (h1 : physAddr ≤ p) (h2 : p < physAddr + size) :
    vaPrefix (mmioPhysToVirt p) 0 ∈ windowPages (physAddr / 4096 * 4096) size ↔
      p < physAddr / 4096 * 4096 + (size + 4095) / 4096 * 4096 := by
  rw [mmio_page hp]
  constructor
  · rintro ⟨j, hj, heq⟩
    omega
  · intro hlt
    exact ⟨p / 4096 - physAddr / 4096, by omega, by omega⟩

/-- What the caller finds behind the address it was given. -/
theorem translateByte_window {k : Nat} (hrange : physAddr + size < 2 ^ 40) (hk : k < size) :
    translateByte m cr3 (add64 (mmioPhysToVirt physAddr) k) = some (physAddr + k) ↔
      translate m cr3 (mmioPhysToVirt (physAddr + k)) = some ((physAddr + k) / 4096 * 4096) := by
  have hlt : physAddr + k < 2 ^ 40 := by omega
  have hva : add64 (mmioPhysToVirt physAddr) k = mmioPhysToVirt (physAddr + k) := by
    rw [mmioPhysToVirt_eq hlt, mmioPhysToVirt_eq (by omega), add64_of_lt (by unfold kernelMmio; omega), Nat.add_assoc]
  rw [hva]
  exact translateByte_eq_some (mmio_offset hlt)

/-- A call that does not fail maps the range exactly where its pages, counted from the rounded start, reach the last
byte, or the page they leave out was mapped so before. -/
theorem map_mmio_maps_iff (hT : Built src cr3 T m s) (hwindow : WindowSmall m cr3) (hsize : 1 ≤ size)
    (hrange : physAddr + size < 2 ^ 40) (hret : (mapMmio src.alloc cr3 physAddr size flags m s).1 ≠ frameAllocFailed) :
    MapsRange (mapMmio src.alloc cr3 physAddr size flags m s).2.1 cr3
        (mapMmio src.alloc cr3 physAddr size flags m s).1 physAddr size ↔
      physAddr + size ≤ pageLeftOut physAddr size ∨
        translate m cr3 (mmioPhysToVirt (pageLeftOut physAddr size)) = some (pageLeftOut physAddr size) := by
  have hstart : alignDown physAddr defaultPageSize = physAddr / 4096 * 4096 :=
    alignDown_two_pow (k := 12) (by omega) (by decide)
  have hround : alignUp size defaultPageSize = (size + 4095) / 4096 * 4096 :=
    alignUp_two_pow (k := 12) (by decide) (by omega)
  obtain ⟨m', s', hcall, h⟩ := mapMmio_paged hT hwindow hrange hret
  rw [hcall]
  dsimp only
  unfold MapsRange pageLeftOut
  rw [hstart, hround]
  -- the pages that were not counted are as before
  have hout : ∀ p, p < 2 ^ 40 → vaPrefix (mmioPhysToVirt p) 0 ∉ windowPages (physAddr / 4096 * 4096) size →
      translate m' cr3 (mmioPhysToVirt p) = translate m cr3 (mmioPhysToVirt p) := fun p hp hmem =>
    (h.kept _ hmem).frame
  have hlast := @mem_windowPages_iff physAddr size
  generalize hL : physAddr / 4096 * 4096 + (size + 4095) / 4096 * 4096 = L at hlast ⊢
  have hpages : L / 4096 * 4096 = L := by
    rw [← hL, ← Nat.add_mul, Nat.mul_div_cancel _ (by decide)]
  constructor
  · intro hmaps
    by_cases hfits : physAddr + size ≤ L
    · exact .inl hfits
    · right
      have hlt : L < 2 ^ 40 := by omega
      have hk : physAddr + (L - physAddr) = L := by omega
      have hpage := (translateByte_window hrange (show L - physAddr < size by omega)).1 (hmaps _ (by omega))
      rw [hk, hout L hlt (fun hmem => absurd ((hlast hlt (by omega) (by omega)).1 hmem) (lt_irrefl L))] at hpage
      rw [hpage, hpages]
  · intro hcases k hk
    have hlt : physAddr + k < 2 ^ 40 := by omega
    have hbounds := hlast hlt (by omega) (by omega)
    refine (translateByte_window hrange hk).2 ?_
    by_cases hmem : vaPrefix (mmioPhysToVirt (physAddr + k)) 0 ∈ windowPages (physAddr / 4096 * 4096) size
    · exact h.translate_window hlt hmem
    · have hge : L ≤ physAddr + k := by
        by_contra hlt'
        exact hmem (hbounds.2 (by omega))
      -- the byte lies in the page left out
      have hquot : (physAddr + k) / 4096 = L / 4096 := by omega
      have hpage : pageOf (mmioPhysToVirt (physAddr + k)) = pageOf (mmioPhysToVirt L) := by
        unfold pageOf
        rw [mmio_page hlt, mmio_page (by omega), hquot]
      rcases hcases with hfits | hmapped
      · omega
      · rw [hout _ hlt hmem, translate_of_page hpage, hmapped, hquot, hpages]

theorem windowSmall_zero (cr3 : Nat) : WindowSmall (fun _ => 0) cr3 := by
  intro p _ w hw
  rw [mmuWalk_zeroed fun _ _ => entryAt_zero ..] at hw
  cases hw

/-- One page, from its first byte to its last. -/
theorem map_mmio_maps_iff_onePage :
    MapsRange (mapMmio (bumpSource 0x8000 (by decide)).alloc 0 0x100000 0x1000 2 (fun _ => 0) 1).2.1 0
      (mapMmio (bumpSource 0x8000 (by decide)).alloc 0 0x100000 0x1000 2 (fun _ => 0) 1).1 0x100000 0x1000 :=
  (@map_mmio_maps_iff _ (bumpSource 0x8000 (by decide)) _ _ (1 : Nat) _ _ _ _
    built_zeros (windowSmall_zero 0) (by decide) (by decide) (by decide +kernel)).2 (.inl (by decide))

/-- Of two bytes on both sides of a page boundary the second is not mapped. -/
theorem map_mmio_misses_page :
    (mapMmio (bumpSource 0x8000 (by decide)).alloc 0 0x100FFF 2 2 (fun _ => 0) 1).1 ≠ frameAllocFailed ∧
      translateByte (mapMmio (bumpSource 0x8000 (by decide)).alloc 0 0x100FFF 2 2 (fun _ => 0) 1).2.1 0
        (add64 (mapMmio (bumpSource 0x8000 (by decide)).alloc 0 0x100FFF 2 2 (fun _ => 0) 1).1 1) = none ∧
      ¬MapsRange (mapMmio (bumpSource 0x8000 (by decide)).alloc 0 0x100FFF 2 2 (fun _ => 0) 1).2.1 0
        (mapMmio (bumpSource 0x8000 (by decide)).alloc 0 0x100FFF 2 2 (fun _ => 0) 1).1 0x100FFF 2 := by
  have hnone : translateByte (mapMmio (bumpSource 0x8000 (by decide)).alloc 0 0x100FFF 2 2 (fun _ => 0) 1).2.1 0
      (add64 (mapMmio (bumpSource 0x8000 (by decide)).alloc 0 0x100FFF 2 2 (fun _ => 0) 1).1 1) = none := by
    decide +kernel
  refine ⟨by decide +kernel, hnone, fun h => ?_⟩
  have hsome := h 1 (by decide)
  rw [hnone] at hsome
  cases hsome

end

end Icarus.Memory
