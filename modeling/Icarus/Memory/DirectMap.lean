/-
The direct map (`page_in_regions`): it is laid with pages of 2 MiB from each region's start rounded up, so that the
frames before the first boundary in a region are mapped when a page of another region happens to reach them.
-/
import Icarus.Memory.BootFrames
import Icarus.Memory.PageLoops
import Icarus.Memory.Reservation

namespace Icarus.Memory

open Icarus.Base

/-! ## Pages of the direct map -/

/-- The number of the 2 MiB page at which the direct map starts. -/
def directBase : Nat := 2 ^ 27 - 2 ^ 10

/-- The memory a page of the direct map is for. -/
def directTarget (page : Nat) : Nat := (page - directBase) * 2 ^ 21

/-- The pages whose memory starts in `[addr, stop)`. -/
def directPages (addr stop : Nat) : Set Nat :=
  {page | ∃ j, addr ≤ 2 ^ 21 * j ∧ 2 ^ 21 * j < stop ∧ page = directBase + j}

section
variable {a : Nat} (h : a < 2 ^ 31)
include h

theorem direct_page : vaPrefix (add64 a kernelVma) 1 = directBase + a / 2 ^ 21 := by
  unfold vaPrefix kernelVma directBase
  rw [add64_of_lt (by omega)]
  omega

theorem direct_offset : add64 a kernelVma % 2 ^ 21 = a % 2 ^ 21 := by
  unfold kernelVma
  rw [add64_of_lt (by omega)]
  omega

theorem direct_index : vaIndex (add64 a kernelVma) 3 = 511 ∧
    (vaIndex (add64 a kernelVma) 2 = 510 ∨ vaIndex (add64 a kernelVma) 2 = 511) := by
  unfold vaIndex kernelVma
  rw [add64_of_lt (by omega)]
  omega

theorem directTarget_page : directTarget (vaPrefix (add64 a kernelVma) 1) = a / 2 ^ 21 * 2 ^ 21 := by
  rw [direct_page h]
  unfold directTarget
  omega

end

theorem directPages_step {addr stop : Nat} (hal : addr % 2 ^ 21 = 0) (hlt : addr < stop) (done : Set Nat) :
    insert (directBase + addr / 2 ^ 21) done ∪ directPages (addr + 2 ^ 21) stop = done ∪ directPages addr stop := by
  ext page
  simp only [directPages, Set.mem_union, Set.mem_insert_iff, Set.mem_ofPred_eq]
  constructor
  · rintro ((rfl | hdone) | ⟨j, h1, h2, rfl⟩)
    · exact .inr ⟨addr / 2 ^ 21, by omega, by omega, rfl⟩
    · exact .inl hdone
    · exact .inr ⟨j, by omega, h2, rfl⟩
  · rintro (hdone | ⟨j, h1, h2, rfl⟩)
    · exact .inl (.inr hdone)
    · by_cases hfirst : j = addr / 2 ^ 21
      · exact .inl (.inl (by rw [hfirst]))
      · exact .inr ⟨j, by omega, h2, rfl⟩

theorem directPages_of_le {addr stop : Nat} (h : stop ≤ addr) : directPages addr stop = ∅ := by
  ext page
  simp only [directPages, Set.mem_ofPred_eq, Set.mem_empty_iff_false, iff_false]
  rintro ⟨j, h1, h2, -⟩
  omega

/-- Rounding up leaves out no page that starts in the region. -/
theorem directPages_alignUp {start stop : Nat} (h : start < 2 ^ 31) :
    directPages (alignUp start hugePs) stop = directPages start stop := by
  have hround : alignUp start hugePs = (start + (2 ^ 21 - 1)) / 2 ^ 21 * 2 ^ 21 :=
    alignUp_two_pow (k := 21) (by decide) (by omega)
  ext page
  rw [hround]
  constructor
  · rintro ⟨j, h1, h2, rfl⟩
    exact ⟨j, by omega, h2, rfl⟩
  · rintro ⟨j, h1, h2, rfl⟩
    exact ⟨j, by omega, h2, rfl⟩

/-! ## Tables -/

/-- The tables of the direct map that are not there yet: one below the PML4, two below that one. -/
def missingTables (m : Mem) (pml4 : Nat) : Nat :=
  if (entryAt m pml4 511).present = true then
    (if (entryAt m (entryAt m pml4 511).frame 510).present = true then 0 else 1) +
      if (entryAt m (entryAt m pml4 511).frame 511).present = true then 0 else 1
  else 3

/-- As long as there are frames left to be served, `ialloc_kframe` does what the source does. -/
theorem enterTable_boot (p f i n : Nat) (m : Mem) (mmap : MemMap) (h : (entryAt m f i).present = false → n ≠ 0) :
    enterTable (iallocKframe · 1) p f i m mmap =
      ((enterTable bootSource.alloc p f i m (mmap, n)).1, (enterTable bootSource.alloc p f i m (mmap, n)).2.1,
        (enterTable bootSource.alloc p f i m (mmap, n)).2.2.1) := by
  unfold enterTable
  cases hp : (entryAt m f i).present with
  | true => rfl
  | false =>
    obtain ⟨k, rfl⟩ := Nat.exists_eq_succ_of_ne_zero (h hp)
    have halloc : bootSource.alloc (mmap, k + 1) = ((iallocKframe mmap 1).1, (iallocKframe mmap 1).2, k) := rfl
    rw [Nat.succ_eq_add_one, halloc]
    beta_reduce
    generalize iallocKframe mmap 1 = served
    obtain ⟨a, mmap'⟩ := served
    by_cases hfail : a = frameAllocFailed <;> simp [hfail]

section
variable {T T' : Tables} {m m' : Mem} {s s' : MemMap × Nat} {p pml4 f i l c : Nat}

/-- A table that is new takes one of the frames. -/
theorem Entered.served (h : Entered bootSource p T m s f i l c T' m' s') (hs : T.Apart bootSource s) :
    (entryAt m f i).present = true ∧ (entryAt m f i).Widens (entryAt m' f i) ∧ T' = T ∧ s' = s ∨
      (entryAt m f i).present = false ∧ (∀ j, j < 512 → entryAt m' c j = 0) ∧ s.2 = s'.2 + 1 := by
  rcases h.grown with hold | ⟨hp, -, hzero, ha, hin⟩
  · exact .inl hold
  · refine .inr ⟨hp, hzero, ?_⟩
    have hlow := bootSource.low s c hs.ok hin
    obtain ⟨mmap, _ | n⟩ := s
    · -- without frames left the allocation would have failed
      have hc : frameAllocFailed = c := congrArg Prod.fst ha
      unfold frameAllocFailed at hc
      omega
    · rw [← show (bootSource.alloc (mmap, n + 1)).2 = s' from congrArg Prod.snd ha]
      rfl

theorem Entered.missing_root (h : Entered bootSource p T m s pml4 511 2 c T' m' s') (hwf : T.WF m)
    (hs : T.Apart bootSource s) (hroot : T.level pml4 = 4) (hn : missingTables m pml4 ≤ s.2) :
    (entryAt m' pml4 511).frame = c ∧ missingTables m' pml4 ≤ s'.2 := by
  have hlevel := (h.le pml4 (by omega)).1
  have hframe : (entryAt m' pml4 511).frame = c := by
    rw [Entry.frame_eq (h.wf.reserved pml4 511 (by omega) (by decide)), h.pagePpn]
  refine ⟨hframe, ?_⟩
  unfold missingTables at hn ⊢
  rw [if_pos h.present, hframe]
  rcases h.served hs with ⟨hp, hw, rfl, rfl⟩ | ⟨hp, hzero, hcount⟩
  · have hc := h.level
    have hsame : ∀ j, j < 512 → entryAt m' c j = entryAt m c j := fun j hj =>
      h.other c j (by omega) hj (by rintro ⟨rfl, -⟩; omega)
    rw [if_pos hp, ← hw.frame, hframe] at hn
    rwa [hsame 510 (by decide), hsame 511 (by decide)]
  · rw [if_neg (by simp [hp])] at hn
    rw [hzero 510 (by decide), hzero 511 (by decide)]
    show 1 + 1 ≤ s'.2
    omega

theorem Entered.missing_child (h : Entered bootSource p T m s c i 1 f T' m' s') (hs : T.Apart bootSource s)
    (hc : T.level c = 3) (hroot : T.level pml4 = 4) (hp : (entryAt m pml4 511).present = true)
    (hframe : (entryAt m pml4 511).frame = c) (hi : i = 510 ∨ i = 511) (hn : missingTables m pml4 ≤ s.2) :
    missingTables m' pml4 ≤ s'.2 := by
  have hrootEntry : entryAt m' pml4 511 = entryAt m pml4 511 :=
    h.other pml4 511 (by omega) (by decide) (by rintro ⟨rfl, -⟩; omega)
  have hother : ∀ j, j < 512 → j ≠ i → entryAt m' c j = entryAt m c j := fun j hj hne =>
    h.other c j (by omega) hj fun heq => hne heq.2
  unfold missingTables at hn ⊢
  rw [if_pos hp, hframe] at hn
  rw [hrootEntry, if_pos hp, hframe]
  have hpresent := h.present
  rcases h.served hs with ⟨hold, -, -, rfl⟩ | ⟨hold, -, hcount⟩
  · rcases hi with rfl | rfl
    · rw [if_pos hpresent, hother 511 (by decide) (by decide)]
      rwa [if_pos hold] at hn
    · rw [if_pos hpresent, hother 510 (by decide) (by decide)]
      rwa [if_pos hold] at hn
  · have hone : (if (entryAt m c i).present = true then 0 else 1) = 1 := if_neg (by simp [hold])
    rcases hi with rfl | rfl
    · rw [if_pos hpresent, hother 511 (by decide) (by decide)]
      omega
    · rw [if_pos hpresent, hother 510 (by decide) (by decide)]
      omega

/-- The entry of a page is in none of the tables that are counted by. -/
theorem missingTables_setEntry (hwf : T.WF m) (hroot : T.level pml4 = 4) {e : Entry} (hc : T.level c = 3)
    (hframe : (entryAt m pml4 511).frame = c) (hf : T.level f = 2) (hi : i < 512) :
    missingTables (setEntry m f i e) pml4 = missingTables m pml4 := by
  have hsame : ∀ g j, 3 ≤ T.level g → j < 512 → entryAt (setEntry m f i e) g j = entryAt m g j := by
    intro g j hg hj
    rw [entryAt_setEntry (hwf.aligned f (by omega)) (hwf.aligned g (by omega)) hi hj, if_neg]
    rintro ⟨rfl, -⟩
    omega
  unfold missingTables
  rw [hsame pml4 511 (by omega) (by decide), hframe, hsame c 510 (by omega) (by decide),
    hsame c 511 (by omega) (by decide)]

end

/-- One call with as many frames to be served as there are tables missing. -/
theorem pageIn_boot (va pa p : Nat) {T : Tables} {m : Mem} {mmap : MemMap} {pml4 n : Nat}
    (hT : Built bootSource pml4 T m (mmap, n)) (hlarge : NoLarger 1 m 4 pml4 va) (h3 : vaIndex va 3 = 511)
    (h2 : vaIndex va 2 = 510 ∨ vaIndex va 2 = 511) (hn : missingTables m pml4 ≤ n) :
    ∃ r m' mmap' n', pageIn bootSource.alloc pml4 va pa hugePs p m (mmap, n) = (r, m', mmap', n') ∧
      pageIn (iallocKframe · 1) pml4 va pa hugePs p m mmap = (r, m', mmap') ∧ (r = 0 → missingTables m' pml4 ≤ n') := by
  have hends := NoLarger.ends_not (l := 2) hlarge hT.blank (by decide) (by rw [hT.root]; decide)
  -- a table that is missing in the root is one of those counted in `n`, so there is a frame for it
  have hsim := enterTable_boot p pml4 (vaIndex va 3) n m mmap (by
    intro hp h0
    rw [h3] at hp
    unfold missingTables at hn
    rw [if_neg (by simp [hp])] at hn
    omega)
  have hstop : leafLevel hugePs = 1 := by decide
  rw [pageIn_eq, pageIn_eq, hstop]
  simp only [Nat.reduceSub, descendTo, Nat.reduceAdd]
  rw [hsim]
  rcases enterTable_spec (p := p) hT.wf hT.apart hT.root (vaIndex_lt va 3) (fun _ => hends) with
    ⟨c, m₁, T₁, ⟨mmap₁, n₁⟩, he, hent⟩ | ⟨he, -, -⟩
  · have hlarge₁ := hent.noLarger hT.wf hT.root (by decide) hlarge
    rw [h3] at hent
    obtain ⟨hframe, hn₁⟩ := hent.missing_root hT.wf hT.apart hT.root hn
    have hroot₁ : T₁.level pml4 = 4 := (hent.le pml4 (by rw [hT.root]; decide)).1.trans hT.root
    have hends₁ := NoLarger.ends_not (l := 1) hlarge₁ (hent.blank hT.blank) (by decide) (by rw [hent.level]; decide)
    -- and so is one that is missing below it
    have hsim₁ := enterTable_boot p c (vaIndex va 2) n₁ m₁ mmap₁ (by
      intro hp h0
      unfold missingTables at hn₁
      rw [if_pos hent.present, hframe] at hn₁
      rcases h2 with h2 | h2
      · rw [h2] at hp
        rw [if_neg (by simp [hp])] at hn₁
        omega
      · rw [h2] at hp
        rw [if_neg (c := (entryAt m₁ c 511).present = true) (by simp [hp])] at hn₁
        omega)
    rw [he]
    dsimp only
    rw [hsim₁]
    rcases enterTable_spec (p := p) hent.wf hent.apart hent.level (vaIndex_lt va 2) (fun _ => hends₁) with
      ⟨d, m₂, T₂, ⟨mmap₂, n₂⟩, he₁, hent₁⟩ | ⟨he₁, -, -⟩
    · have hn₂ := hent₁.missing_child hent.apart hent.level hroot₁ hent.present hframe h2 hn₁
      have hroot₂ : T₂.level pml4 = 4 := (hent₁.le pml4 (by rw [hroot₁]; decide)).1.trans hroot₁
      have hc₂ : T₂.level c = 3 := (hent₁.le c (by rw [hent.level]; decide)).1.trans hent.level
      have hframe₂ : (entryAt m₂ pml4 511).frame = c := by
        have hlevel := hent.level
        rw [hent₁.other pml4 511 (by omega) (by decide) (by rintro ⟨rfl, -⟩; omega), hframe]
      rw [he₁]
      refine ⟨0, _, mmap₂, n₂, rfl, rfl, fun _ => ?_⟩
      rw [missingTables_setEntry hent₁.wf hroot₂ hc₂ hframe₂ hent₁.level (vaIndex_lt va 1)]
      exact hn₂
    · rw [he₁]
      exact ⟨-1, _, _, _, rfl, rfl, fun h0 => by omega⟩
  · rw [he]
    exact ⟨-1, _, _, _, rfl, rfl, fun h0 => by omega⟩

/-! ## The loops -/

section
variable {pml4 : Nat} {m₀ : Mem}

/-- The pages in `done` are mapped, and as many frames can be served as there are tables missing. -/
def LaidOver (pml4 : Nat) (m₀ : Mem) (done : Set Nat) (m : Mem) (mmap : MemMap) : Prop :=
  ∃ n, PagedSet bootSource pml4 1 directTarget m₀ done m (mmap, n) ∧ missingTables m pml4 ≤ n

/-- One page of the direct map. -/
theorem LaidOver.page {done : Set Nat} {m : Mem} {mmap : MemMap} (h : LaidOver pml4 m₀ done m mmap)
    (hempty : ∀ va, NoLarger 1 m₀ 4 pml4 va) {addr : Nat} (hal : addr % 2 ^ 21 = 0) (hlt : addr < 2 ^ 31) :
    ∃ err m' mmap', pageIn (iallocKframe · 1) pml4 (add64 addr kernelVma) addr hugePs writeablePermission m mmap =
      (err, m', mmap') ∧ (err = 0 → LaidOver pml4 m₀ (insert (directBase + addr / 2 ^ 21) done) m' mmap') := by
  obtain ⟨n, hset, hn⟩ := h
  obtain ⟨T, hT⟩ := hset.built
  obtain ⟨h3, h2⟩ := direct_index hlt
  have htarget : directTarget (vaPrefix (add64 addr kernelVma) 1) = addr := by
    rw [directTarget_page hlt]
    omega
  obtain ⟨r, m', s', he, hres⟩ := hset.page (add64 addr kernelVma) hugePs writeablePermission (by decide) (hempty _)
  obtain ⟨r', m'', mmap'', n', he', hreal, hcount⟩ := pageIn_boot (add64 addr kernelVma) addr
    writeablePermission hT (hset.noLarger (hempty _)) h3 h2 hn
  rw [htarget, he'] at he
  cases he
  refine ⟨r, m', mmap'', hreal, fun h0 => ⟨n', ?_, hcount h0⟩⟩
  rcases hres with ⟨hr, -⟩ | ⟨-, hnext⟩
  · omega
  · rwa [direct_page hlt] at hnext

/-- The inner loop maps page after page up to the end of the region, or fails. -/
theorem pageInRegion_laid (hempty : ∀ va, NoLarger 1 m₀ 4 pml4 va) {stop : Nat} (hstop : stop ≤ 2 ^ 31) :
    ∀ (fuel addr : Nat) {done : Set Nat} {m : Mem} {mmap : MemMap}, addr % 2 ^ 21 = 0 →
      stop + 2 ^ 21 ≤ addr + 2 ^ 21 * fuel → addr < stop + 2 ^ 21 → LaidOver pml4 m₀ done m mmap →
        ∃ err m' mmap', pageInRegion pml4 stop fuel addr m mmap = .ok (err, m', mmap') ∧
          (err = 0 → LaidOver pml4 m₀ (done ∪ directPages addr stop) m' mmap')
  | 0, addr, done, m, mmap, _, hfuel, hend, _ => by omega
  | fuel + 1, addr, done, m, mmap, hal, hfuel, hend, h => by
    unfold pageInRegion
    by_cases hlt : addr < stop
    · obtain ⟨err, m', mmap', he, hnext⟩ := h.page hempty hal (by omega)
      rw [if_pos hlt, he]
      dsimp only
      by_cases herr : err = 0
      · have hadd : add64 addr hugePs = addr + 2 ^ 21 := add64_of_lt (by unfold hugePs; omega)
        rw [if_neg (not_not.2 herr), hadd, ← directPages_step hal hlt]
        exact pageInRegion_laid hempty hstop fuel (addr + 2 ^ 21) (by omega) (by omega) (by omega) (hnext herr)
      · exact ⟨-1, m', mmap', if_pos herr, fun h0 => by omega⟩
    · rw [if_neg hlt, directPages_of_le (not_lt.1 hlt), Set.union_empty]
      exact ⟨0, m, mmap, rfl, fun _ => h⟩

/-- The pages of several regions. -/
def regionPages (regions : List MemRegion) : Set Nat :=
  {page | ∃ r ∈ regions, page ∈ directPages r.startAddr (r.startAddr + r.lenBytes)}

theorem regionPages_cons (r : MemRegion) (regions : List MemRegion) :
    regionPages (r :: regions) = directPages r.startAddr (r.startAddr + r.lenBytes) ∪ regionPages regions := by
  ext page
  simp [regionPages]

/-- The outer loop maps the pages of region after region. -/
theorem pageInRegions_laid (hempty : ∀ va, NoLarger 1 m₀ 4 pml4 va) {fuel : Nat} (hfuel : 1024 < fuel) :
    ∀ (regions : List MemRegion) {done : Set Nat} {m : Mem} {mmap : MemMap},
      (∀ r ∈ regions, 0 < r.lenBytes ∧ r.startAddr + r.lenBytes ≤ 2 ^ 31) → LaidOver pml4 m₀ done m mmap →
        ∃ err m' mmap', pageInRegions fuel pml4 regions m mmap = .ok (err, m', mmap') ∧
          (err = 0 → LaidOver pml4 m₀ (done ∪ regionPages regions) m' mmap')
  | [], done, m, mmap, _, h => by
    refine ⟨0, m, mmap, rfl, fun _ => ?_⟩
    simpa [regionPages] using h
  | r :: regions, done, m, mmap, hlow, h => by
    obtain ⟨hne, hle⟩ := hlow r List.mem_cons_self
    have hround : alignUp r.startAddr hugePs = (r.startAddr + (2 ^ 21 - 1)) / 2 ^ 21 * 2 ^ 21 :=
      alignUp_two_pow (k := 21) (by decide) (by omega)
    have hend : r.endAddr = r.startAddr + r.lenBytes := add64_of_lt (by omega)
    obtain ⟨err, m', mmap', he, hdone⟩ := pageInRegion_laid hempty hle fuel (alignUp r.startAddr hugePs)
      (by rw [hround]; exact Nat.mul_mod_left ..) (by omega) (by omega) h
    unfold pageInRegions
    rw [hend, he]
    by_cases herr : err = 0
    · have hnext := hdone herr
      rw [directPages_alignUp (by omega)] at hnext
      obtain ⟨err', m'', mmap'', he', hdone'⟩ := pageInRegions_laid hempty hfuel regions
        (fun x hx => hlow x (List.mem_cons_of_mem r hx)) hnext
      refine ⟨err', m'', mmap'', ?_, fun h0 => ?_⟩
      · exact (if_neg (not_not.2 herr)).trans he'
      · rw [regionPages_cons, ← Set.union_assoc]
        exact hdone' h0
    · exact ⟨-1, m', mmap', if_pos herr, fun h0 => by omega⟩

end

/-! ## Coverage -/

/-- Every frame of the map is found at its place in the direct map. -/
def DirectlyMapped (m : Mem) (pml4 : Nat) (mmap : MemMap) : Prop :=
  ∀ r ∈ mmap.regions, ∀ k, k < r.frames →
    translate m pml4 (add64 (r.startAddr + 4096 * k) kernelVma) = some (r.startAddr + 4096 * k)

/-- The 2 MiB page in which a region starts starts in a region itself. -/
def HeadsCovered (mmap : MemMap) : Prop :=
  ∀ r ∈ mmap.regions, ∃ r' ∈ mmap.regions,
    r'.startAddr ≤ alignDown r.startAddr hugePs ∧ alignDown r.startAddr hugePs < r'.startAddr + r'.lenBytes

section
variable {pml4 fuel : Nat} {m : Mem} {mmap : MemMap}

theorem headsCovered_iff (hs : Shaped mmap) (hlow : mmap.Low) : HeadsCovered mmap ↔
    ∀ r ∈ mmap.regions, ∀ k, k < r.frames →
      directBase + (r.startAddr + 4096 * k) / 2 ^ 21 ∈ regionPages mmap.regions := by
  have hdown : ∀ r ∈ mmap.regions, alignDown r.startAddr hugePs = r.startAddr / 2 ^ 21 * 2 ^ 21 := by
    intro r hr
    have := hlow r hr
    exact alignDown_two_pow (k := 21) (by omega) (by decide)
  constructor
  · intro h r hr k hk
    have hlen := hs.len_eq hr
    by_cases hhead : r.startAddr ≤ 2 ^ 21 * ((r.startAddr + 4096 * k) / 2 ^ 21)
    · exact ⟨r, hr, _, hhead, by omega, rfl⟩
    · -- a frame before the first boundary: its page starts before the region
      obtain ⟨r', hr', h1, h2⟩ := h r hr
      rw [hdown r hr] at h1 h2
      exact ⟨r', hr', (r.startAddr + 4096 * k) / 2 ^ 21, by omega, by omega, rfl⟩
  · intro h r hr
    have hlen := hs.len_eq hr
    have hne := hs.nonempty r hr
    obtain ⟨r', hr', j, h1, h2, hj⟩ := h r hr 0 (by omega)
    rw [hdown r hr]
    exact ⟨r', hr', by omega, by omega⟩

/-- Laid from a zeroed PML4, the direct map holds all frames of the map exactly where the head of every region that does
not start on a boundary of 2 MiB lies in a page that starts in a region. The three tables of the direct map are to be
had: no region counts free frames it does not have, up to that number. -/
theorem direct_map_covers_iff (hok : Servable 3 mmap) (haligned : pml4 % 4096 = 0) (hfree : pml4 ∉ mmap.free)
    (hzero : ∀ i, i < 512 → entryAt m pml4 i = 0) (hfuel : 1024 < fuel) :
    ∃ err m' mmap', pageInRegions fuel pml4 mmap.regions m mmap = .ok (err, m', mmap') ∧
      (err = 0 → (DirectlyMapped m' pml4 mmap ↔ HeadsCovered mmap)) := by
  have hs := hok.shaped
  have hlow := hok.low
  have hnone := mmuWalk_zeroed hzero
  have hmissing : missingTables m pml4 = 3 := by
    unfold missingTables
    rw [hzero 511 (by decide)]
    rfl
  obtain ⟨err, m', mmap', he, hdone⟩ := pageInRegions_laid (fun va w hw => by rw [hnone va] at hw; cases hw) hfuel
    mmap.regions (fun r hr => ⟨hs.nonempty r hr, hlow r hr⟩)
    ⟨3, .start (Built.zeroed hok haligned hfree hzero), hmissing.le⟩
  refine ⟨err, m', mmap', he, fun h0 => ?_⟩
  obtain ⟨n, h, -⟩ := hdone h0
  rw [Set.empty_union] at h
  rw [headsCovered_iff hs hlow]
  refine forall₂_congr fun r hr => forall₂_congr fun k hk => ?_
  have hlen := hs.len_eq hr
  have hstart := hs.startAligned r hr
  have hlt : r.startAddr + 4096 * k < 2 ^ 31 := by
    have := hlow r hr
    omega
  unfold defaultPageSize at hstart
  generalize hf : r.startAddr + 4096 * k = f at hlt ⊢
  have hpage := direct_page hlt
  constructor
  · intro hmap
    by_contra hout
    -- what was not mapped is as it was before the loop
    have hkept := h.kept (add64 f kernelVma) (by rwa [hpage])
    rw [hnone] at hkept
    unfold translate at hmap
    rw [hkept.eq_none] at hmap
    cases hmap
  · intro hin
    obtain ⟨w, hw, hmaps⟩ := h.mapped (add64 f kernelVma) (by rwa [hpage])
    rw [directTarget_page hlt] at hmaps
    unfold translate
    rw [hw, Option.map_some, hmaps.frame (by decide) (Nat.mul_mod_left ..) (by omega),
      show 12 + 9 * 1 = 21 from rfl, direct_offset hlt]
    exact congrArg some (by omega)

/-- A map of one region of 16 free frames from `start` on, the padding clear. -/
def sixteenFrames (start : Nat) : MemMap := ⟨start + 0x10000, [⟨start, 0x10000, 0, 1, 16⟩], ⟨64, fun _ => 0⟩⟩

theorem sixteenFrames_servable {start : Nat} (hal : start % 4096 = 0) (hlow : start + 0x10000 ≤ 2 ^ 31) :
    Servable 3 (sixteenFrames start) := by
  have hone : ∀ {P : MemRegion → Prop}, P ⟨start, 0x10000, 0, 1, 16⟩ → ∀ r ∈ (sixteenFrames start).regions, P r := by
    intro P hP r hr
    obtain rfl := List.mem_singleton.1 hr
    exact hP
  refine ⟨⟨by simp [sixteenFrames, maxMemRegions], hone (show 0 < 0x10000 by decide), hone hal,
    hone (show 0x10000 % 4096 = 0 by decide), hone ?_, List.pairwise_singleton _ _,
    ⟨rfl, show 1 = (0x10000 / 4096 + 63) / 64 by decide, rfl⟩⟩, hone hlow, hone (show 16 < 2 ^ 64 by decide), hone ?_⟩
  · show start + 0x10000 < 2 ^ 64
    omega
  · have hbits : Finset.range 16 ⊆ clearFrames (sixteenFrames start).bitmap.data ⟨start, 0x10000, 0, 1, 16⟩ := by
      intro j hj
      refine Finset.mem_filter.2 ⟨?_, by simp [sixteenFrames, Mem.bit]⟩
      simpa [MemRegion.frames, defaultPageSize] using hj
    have hcard := Finset.card_le_card hbits
    rw [Finset.card_range] at hcard
    show min 3 16 ≤ _
    omega

/-- A region on a boundary. -/
theorem direct_map_covers_iff_sixteenFrames :
    ∃ m' mmap', pageInRegions 1025 0x1000 (sixteenFrames 0x200000).regions (fun _ => 0) (sixteenFrames 0x200000) =
      .ok (0, m', mmap') ∧ DirectlyMapped m' 0x1000 (sixteenFrames 0x200000) := by
  have hfree : 0x1000 ∉ (sixteenFrames 0x200000).free := by
    rintro ⟨r, hr, k, -, hk, -⟩
    obtain rfl := List.mem_singleton.1 hr
    dsimp only at hk
    omega
  obtain ⟨err, m', mmap', he, hiff⟩ := direct_map_covers_iff (m := fun _ => 0)
    (sixteenFrames_servable (show 0x200000 % 4096 = 0 by decide) (by decide)) (by decide) hfree
    (fun _ _ => entryAt_zero ..) (show 1024 < 1025 by decide)
  have hret : (pageInRegions 1025 0x1000 (sixteenFrames 0x200000).regions (fun _ => 0)
      (sixteenFrames 0x200000)).toOption.map Prod.fst = some 0 := by decide +kernel
  rw [he] at hret
  obtain rfl : err = 0 := Option.some.inj hret
  refine ⟨m', mmap', he, (hiff rfl).2 fun r hr => ?_⟩
  obtain rfl := List.mem_singleton.1 hr
  exact ⟨_, List.mem_singleton_self _, by decide, by decide⟩

/-- A region in the midst of a page, with nothing before it: `page_in_regions` returns 0 and maps nothing. -/
theorem direct_map_misses_head :
    (∃ m' mmap', pageInRegions 1025 0x1000 (sixteenFrames 0x100000).regions (fun _ => 0) (sixteenFrames 0x100000) =
      .ok (0, m', mmap')) ∧
    ¬∃ m' mmap', pageInRegions 1025 0x1000 (sixteenFrames 0x100000).regions (fun _ => 0) (sixteenFrames 0x100000) =
      .ok (0, m', mmap') ∧ DirectlyMapped m' 0x1000 (sixteenFrames 0x100000) := by
  have hrun : pageInRegions 1025 0x1000 (sixteenFrames 0x100000).regions (fun _ => 0) (sixteenFrames 0x100000) =
      .ok (0, fun _ => 0, sixteenFrames 0x100000) := rfl
  refine ⟨⟨_, _, hrun⟩, ?_⟩
  rintro ⟨m', mmap', he, hmap⟩
  rw [hrun] at he
  cases he
  have hfirst := hmap _ (List.mem_singleton_self _) 0 (by decide)
  have hnone : translate (fun _ => 0) 0x1000 (add64 (0x100000 + 4096 * 0) kernelVma) = none := by decide +kernel
  rw [hnone] at hfirst
  cases hfirst

end

end Icarus.Memory
