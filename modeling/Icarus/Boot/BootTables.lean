/-
The page tables of boot.asm, under which the kernel runs up to its own `write_cr3`: the walk of the MMU through them,
the four windows that they open, and which frames of the kernel are still where they were once its own tables are loaded.
-/
import Icarus.Boot.Multiboot
import Icarus.Memory.DirectMap

namespace Icarus.Boot

open Icarus.Base Icarus.Memory

/-! ## The data -/

/-- `pml4`. -/
def pml4Data (pdpt : Nat) : List Entry :=
  [BitVec.ofNat 64 (pdpt + 0x003)] ++ List.replicate 510 0 ++ [BitVec.ofNat 64 (pdpt + 0x003)]

/-- `pdpt`. -/
def pdptData (pd : Nat) : List Entry :=
  [BitVec.ofNat 64 (pd + 0x003)] ++ List.replicate 509 0 ++ [BitVec.ofNat 64 (pd + 0x003), 0]

/-- `pd`, which is three entries longer than a table. -/
def pdData : List Entry :=
  (List.range 20).map (fun i => BitVec.ofNat 64 (i * 0x200000 ||| 0x83)) ++ List.replicate (512 - 17) 0

/-- `align 4096`. -/
def alignPage (a : Nat) : Nat := (a + 4095) / 4096 * 4096

/-- Where `pdpt` comes to lie behind `pml4`. -/
def bootPdpt (pml4 : Nat) : Nat := alignPage (pml4 + 8 * (pml4Data 0).length)

/-- Where `pd` comes to lie. -/
def bootPd (pml4 : Nat) : Nat := alignPage (bootPdpt pml4 + 8 * (pdptData 0).length)

/-- The entries lie one behind the other. -/
def HoldsEntries (m : Mem) (a : Nat) (data : List Entry) : Prop :=
  ∀ i < data.length, m.load64 (a + 8 * i) = data.getD i 0

/-- The data of boot.asm is in memory, at addresses of 32 bits. -/
structure BootTables (m : Mem) (pml4 : Nat) : Prop where
  aligned : pml4 % 4096 = 0
  low : pml4 + 0x4000 ≤ 2 ^ 32
  root : HoldsEntries m pml4 (pml4Data (bootPdpt pml4))
  pointers : HoldsEntries m (bootPdpt pml4) (pdptData (bootPd pml4))
  pages : HoldsEntries m (bootPd pml4) pdData

/-! ## The entries -/

section
variable {m : Mem} {pml4 : Nat}

theorem getD_zeros_append (n : Nat) (l : List Entry) (i : Nat) :
    (List.replicate n 0 ++ l).getD i 0 = if i < n then 0 else l.getD (i - n) 0 := by
  split_ifs with hi
  · rw [List.getD_append _ _ _ _ (by rwa [List.length_replicate]), List.getD_replicate _ hi]
  · rw [List.getD_append_right _ _ _ _ (by rw [List.length_replicate]; omega), List.length_replicate]

theorem pml4Data_getD (pdpt : Nat) {i : Nat} (hi : i < 512) :
    (pml4Data pdpt).getD i 0 = if i = 0 ∨ i = 511 then BitVec.ofNat 64 (pdpt + 3) else 0 := by
  unfold pml4Data
  rcases i with _ | i
  · rfl
  · rw [List.append_assoc, List.singleton_append, List.getD_cons_succ, getD_zeros_append]
    by_cases hlast : i = 510
    · subst hlast
      rfl
    · rw [if_pos (by omega), if_neg (by omega)]

theorem pdptData_getD (pd : Nat) {i : Nat} (hi : i < 512) :
    (pdptData pd).getD i 0 = if i = 0 ∨ i = 510 then BitVec.ofNat 64 (pd + 3) else 0 := by
  unfold pdptData
  rcases i with _ | i
  · rfl
  · rw [List.append_assoc, List.singleton_append, List.getD_cons_succ, getD_zeros_append]
    by_cases hsecond : i = 509
    · subst hsecond
      rfl
    · by_cases hlast : i = 510
      · subst hlast
        rfl
      · rw [if_pos (by omega), if_neg (by omega)]

theorem pdData_getD {i : Nat} (hi : i < 512) :
    pdData.getD i 0 = if i < 20 then BitVec.ofNat 64 (i * 0x200000 ||| 0x83) else 0 := by
  have hlen : ((List.range 20).map fun i => BitVec.ofNat 64 (i * 0x200000 ||| 0x83)).length = 20 := by simp
  unfold pdData
  by_cases hpage : i < 20
  · rw [if_pos hpage, List.getD_append _ _ _ _ (hlen ▸ hpage)]
    interval_cases i <;> rfl
  · rw [if_neg hpage, List.getD_append_right _ _ _ _ (by omega), hlen, List.getD_replicate _ (by omega)]

/-- An entry that names a table. -/
structure NamesTable (e : Entry) (table : Nat) : Prop where
  present : e.present = true
  huge : e.huge = false
  frame : e.frame = table
  writeable : e.writeable = true
  supervisor : e.userAccess = false
  executable : e.executionDisabled = false

theorem namesTable {table : Nat} (hal : table % 4096 = 0) (hlow : table < 2 ^ 32) :
    NamesTable (BitVec.ofNat 64 (table + 3)) table := by
  obtain ⟨q, rfl⟩ : ∃ q, table = 2 ^ 12 * q := ⟨table / 4096, by omega⟩
  have hbit : ∀ j < 12, (BitVec.ofNat 64 (2 ^ 12 * q + 3)).getLsbD j = (3 : Nat).testBit j := by
    intro j hj
    rw [BitVec.getLsbD_ofNat, Nat.testBit_two_pow_mul_add _ (by decide), if_pos hj, decide_eq_true (by omega)]
    rfl
  refine ⟨hbit 0 (by decide), hbit 7 (by decide), ?_, hbit 1 (by decide), hbit 2 (by decide), ?_⟩
  · unfold Entry.frame
    rw [BitVec.extractLsb'_toNat, BitVec.toNat_ofNat, Nat.mod_eq_of_lt (by omega), Nat.shiftRight_eq_div_pow]
    omega
  · unfold Entry.executionDisabled
    rw [BitVec.getLsbD_ofNat, Nat.testBit_lt_two_pow (by omega)]
    rfl

/-- The entry of a page of 2 MiB. -/
structure MapsPage (e : Entry) (i : Nat) : Prop where
  present : e.present = true
  huge : e.huge = true
  frame : e.frame = i * 2 ^ 21
  writeable : e.writeable = true
  supervisor : e.userAccess = false
  executable : e.executionDisabled = false

theorem mapsPage {i : Nat} (hi : i < 20) : MapsPage (BitVec.ofNat 64 (i * 0x200000 ||| 0x83)) i := by
  constructor <;> interval_cases i <;> decide

/-! ## The walk -/

theorem length_pml4Data (pdpt : Nat) : (pml4Data pdpt).length = 512 := by
  unfold pml4Data
  rw [List.length_append, List.length_append, List.length_replicate]
  rfl

theorem length_pdptData (pd : Nat) : (pdptData pd).length = 512 := by
  unfold pdptData
  rw [List.length_append, List.length_append, List.length_replicate]
  rfl

theorem length_pdData : pdData.length = 515 := by
  unfold pdData
  rw [List.length_append, List.length_map, List.length_range, List.length_replicate]

theorem BootTables.places (h : BootTables m pml4) : bootPdpt pml4 = pml4 + 0x1000 ∧ bootPd pml4 = pml4 + 0x2000 := by
  have hal := h.aligned
  have hpdpt : bootPdpt pml4 = pml4 + 0x1000 := by
    unfold bootPdpt alignPage
    rw [length_pml4Data]
    omega
  refine ⟨hpdpt, ?_⟩
  unfold bootPd alignPage
  rw [hpdpt, length_pdptData]
  omega

/-- What the walk finds: two entries that name tables, and a page of 2 MiB. -/
def bootWalk (pml4 va : Nat) : Walk :=
  ⟨[BitVec.ofNat 64 (bootPdpt pml4 + 3), BitVec.ofNat 64 (bootPd pml4 + 3)],
    BitVec.ofNat 64 (vaIndex va 1 * 0x200000 ||| 0x83), 1⟩

/-- The walk through the boot tables. -/
theorem BootTables.walk (h : BootTables m pml4) (va : Nat) : mmuWalk m 4 pml4 va =
    if (vaIndex va 3 = 0 ∨ vaIndex va 3 = 511) ∧ (vaIndex va 2 = 0 ∨ vaIndex va 2 = 510) ∧ vaIndex va 1 < 20 then
      some (bootWalk pml4 va) else none := by
  obtain ⟨hpdpt, hpd⟩ := h.places
  have hal := h.aligned
  have hlow := h.low
  have hroot : ∀ i < 512, entryAt m pml4 i = _ := fun i hi =>
    (h.root i ((length_pml4Data _).symm ▸ hi)).trans (pml4Data_getD _ hi)
  have hpointers : ∀ i < 512, entryAt m (bootPdpt pml4) i = _ := fun i hi =>
    (h.pointers i ((length_pdptData _).symm ▸ hi)).trans (pdptData_getD _ hi)
  have hpages : ∀ i < 512, entryAt m (bootPd pml4) i = _ := fun i hi =>
    (h.pages i (by rw [length_pdData]; omega)).trans (pdData_getD hi)
  have hfirst : NamesTable _ (bootPdpt pml4) := namesTable (by omega) (by omega)
  have hsecond : NamesTable _ (bootPd pml4) := namesTable (by omega) (by omega)
  have habsent : (0 : Entry).present = false := rfl
  unfold mmuWalk
  dsimp only
  rw [hroot _ (vaIndex_lt va 3)]
  by_cases h3 : vaIndex va 3 = 0 ∨ vaIndex va 3 = 511
  · have hgoes : ¬Entry.EndsWalk (BitVec.ofNat 64 (bootPdpt pml4 + 3)) 3 := by
      unfold Entry.EndsWalk
      omega
    rw [if_pos h3, hfirst.present, if_neg (by decide), if_neg hgoes, hfirst.frame]
    unfold mmuWalk
    dsimp only
    rw [hpointers _ (vaIndex_lt va 2)]
    by_cases h2 : vaIndex va 2 = 0 ∨ vaIndex va 2 = 510
    · have hgoes : ¬Entry.EndsWalk (BitVec.ofNat 64 (bootPd pml4 + 3)) 2 := by
        unfold Entry.EndsWalk
        rw [hsecond.huge]
        simp
      rw [if_pos h2, hsecond.present, if_neg (by decide), if_neg hgoes, hsecond.frame]
      unfold mmuWalk
      dsimp only
      rw [hpages _ (vaIndex_lt va 1)]
      by_cases h1 : vaIndex va 1 < 20
      · have hpage := mapsPage h1
        have hends : Entry.EndsWalk (BitVec.ofNat 64 (vaIndex va 1 * 0x200000 ||| 0x83)) 1 :=
          .inr ⟨by decide, hpage.huge⟩
        rw [if_pos h1, hpage.present, if_neg (by decide), if_pos hends, if_pos ⟨h3, h2, h1⟩]
        rfl
      · rw [if_neg h1, if_pos habsent, if_neg fun hall => h1 hall.2.2]
        rfl
    · rw [if_neg h2, if_pos habsent, if_neg fun hall => h2 hall.2.1]
      rfl
  · rw [if_neg h3, if_pos habsent, if_neg fun hall => h3 hall.1]

/-! ## The windows -/

/-- Where the four windows begin: the low one, and the three that the second entries of `pml4` and `pdpt` add, the last
of which the kernel is linked for. -/
def bootWindows : List Nat := [0, 510 * 2 ^ 30, 2 ^ 64 - 2 ^ 39, kernelVma]

theorem bootMapped_iff_index {va : Nat} (hcanon : va < 2 ^ 47 ∨ 2 ^ 64 - 2 ^ 47 ≤ va ∧ va < 2 ^ 64) : BootMapped va ↔
    (vaIndex va 3 = 0 ∨ vaIndex va 3 = 511) ∧ (vaIndex va 2 = 0 ∨ vaIndex va 2 = 510) ∧ vaIndex va 1 < 20 := by
  obtain ⟨h3, h2, h1, -⟩ := vaIndex_macros va
  unfold BootMapped
  rw [h3, h2, h1]
  exact and_iff_right hcanon

theorem bootMapped_iff_window {va : Nat} (hcanon : va < 2 ^ 47 ∨ 2 ^ 64 - 2 ^ 47 ≤ va ∧ va < 2 ^ 64) :
    BootMapped va ↔ ∃ window ∈ bootWindows, ∃ p < bootMappedEnd, va = window + p := by
  rw [bootMapped_iff_index hcanon]
  unfold vaIndex bootMappedEnd
  constructor
  · intro h
    have hcases : va = 0 + va % 2 ^ 30 ∨ va = 510 * 2 ^ 30 + va % 2 ^ 30 ∨ va = 2 ^ 64 - 2 ^ 39 + va % 2 ^ 30 ∨
        va = kernelVma + va % 2 ^ 30 := by
      unfold kernelVma
      omega
    have hp : va % 2 ^ 30 < 20 * 0x200000 := by omega
    rcases hcases with hva | hva | hva | hva
    · exact ⟨_, .head _, _, hp, hva⟩
    · exact ⟨_, .tail _ (.head _), _, hp, hva⟩
    · exact ⟨_, .tail _ (.tail _ (.head _)), _, hp, hva⟩
    · exact ⟨_, .tail _ (.tail _ (.tail _ (.head _))), _, hp, hva⟩
  · rintro ⟨window, hwindow, p, hp, rfl⟩
    have hcases : window = 0 ∨ window = 510 * 2 ^ 30 ∨ window = 2 ^ 64 - 2 ^ 39 ∨ window = kernelVma := by
      simpa only [bootWindows, List.mem_cons, List.not_mem_nil, or_false] using hwindow
    clear hwindow hcanon
    unfold kernelVma at hcases
    omega

/-- Under the tables of boot.asm exactly four windows of 40 MiB are mapped, each to the first 40 MiB of the memory, and
there the kernel may read, write and execute, and user code nothing. -/
theorem boot_tables_map (h : BootTables m pml4) {va : Nat} (hcanon : va < 2 ^ 47 ∨ 2 ^ 64 - 2 ^ 47 ≤ va ∧ va < 2 ^ 64) :
    ((∃ w, mmuWalk m 4 pml4 va = some w) ↔ ∃ window ∈ bootWindows, ∃ p < bootMappedEnd, va = window + p) ∧
      ∀ w, mmuWalk m 4 pml4 va = some w → w.frame va + va % 4096 = va % 2 ^ 30 ∧ w.writeable = true ∧
        w.userAccess = false ∧ w.executionDisabled = false := by
  rw [← bootMapped_iff_window hcanon, bootMapped_iff_index hcanon, h.walk]
  obtain ⟨hpdpt, hpd⟩ := h.places
  have hal := h.aligned
  have hlow := h.low
  have hfirst : NamesTable _ (bootPdpt pml4) := namesTable (by omega) (by omega)
  have hsecond : NamesTable _ (bootPd pml4) := namesTable (by omega) (by omega)
  by_cases hmapped : (vaIndex va 3 = 0 ∨ vaIndex va 3 = 511) ∧ (vaIndex va 2 = 0 ∨ vaIndex va 2 = 510) ∧
      vaIndex va 1 < 20
  · have hpage := mapsPage hmapped.2.2
    rw [if_pos hmapped]
    refine ⟨iff_of_true ⟨_, rfl⟩ hmapped, ?_⟩
    rintro w ⟨⟩
    refine ⟨?_, ?_, ?_, ?_⟩
    · have hframe : (bootWalk pml4 va).leaf.frame = vaIndex va 1 * 2 ^ 21 := hpage.frame
      have hlevel : (bootWalk pml4 va).level = 1 := rfl
      have hsmall := hmapped.2.2
      unfold Walk.frame
      rw [hframe, hlevel]
      unfold vaIndex at hsmall ⊢
      omega
    · simp only [Walk.writeable, bootWalk, List.all_cons, List.all_nil, hfirst.writeable, hsecond.writeable,
        hpage.writeable, Bool.and_self]
    · simp only [Walk.userAccess, bootWalk, hpage.supervisor, Bool.and_false]
    · simp only [Walk.executionDisabled, bootWalk, List.any_cons, List.any_nil, hfirst.executable, hsecond.executable,
        hpage.executable, Bool.or_self]
  · rw [if_neg hmapped]
    exact ⟨iff_of_false (fun ⟨w, hw⟩ => by cases hw) hmapped, fun w hw => by cases hw⟩

/-- The data laid into a memory. -/
def layEntries (a : Nat) (data : List Entry) (m : Mem) : Mem := fun x =>
  if a ≤ x ∧ x < a + 8 * data.length then (data.getD ((x - a) / 8) 0).extractLsb' (8 * ((x - a) % 8)) 8 else m x

theorem layEntries_holds (a : Nat) (data : List Entry) (m : Mem) : HoldsEntries (layEntries a data m) a data := by
  intro i hi
  apply BitVec.eq_of_getLsbD_eq
  intro k hk
  rw [Mem.load_getLsbD _ _ _ _ hk]
  unfold layEntries
  have hentry : (a + 8 * i + k / 8 - a) / 8 = i := by omega
  have hbyte : (a + 8 * i + k / 8 - a) % 8 = k / 8 := by omega
  have hbit : 8 * (k / 8) + k % 8 = k := by omega
  rw [if_pos (by omega), hentry, hbyte, BitVec.getLsbD_extractLsb', hbit, decide_eq_true (by omega)]
  rfl

theorem layEntries_apart {a b : Nat} {data data' : List Entry} {m : Mem} (h : HoldsEntries m a data)
    (hapart : a + 8 * data.length ≤ b ∨ b + 8 * data'.length ≤ a) : HoldsEntries (layEntries b data' m) a data := by
  intro i hi
  rw [← h i hi]
  exact Mem.load_congr fun x h1 h2 => if_neg (by omega)

/-- A memory that holds the tables and nothing else. -/
def bootMem : Mem :=
  layEntries 0x101000 (pml4Data 0x102000)
    (layEntries 0x102000 (pdptData 0x103000) (layEntries 0x103000 pdData fun _ => 0))

theorem bootMem_low {x : Nat} (hx : x < 0x101000) : bootMem x = 0 :=
  (if_neg (by omega)).trans ((if_neg (by omega)).trans (if_neg (by omega)))

theorem bootMem_tables : BootTables bootMem 0x101000 := by
  have hpdpt : bootPdpt 0x101000 = 0x102000 := by
    unfold bootPdpt
    rw [length_pml4Data]
    rfl
  have hpd : bootPd 0x101000 = 0x103000 := by
    unfold bootPd
    rw [hpdpt, length_pdptData]
    rfl
  refine ⟨by decide, by decide, ?_, ?_, ?_⟩
  · rw [hpdpt]
    exact layEntries_holds _ _ _
  · rw [hpdpt, hpd]
    refine layEntries_apart (layEntries_holds _ _ _) (.inr ?_)
    rw [length_pml4Data]
  · rw [hpd]
    refine layEntries_apart (layEntries_apart (layEntries_holds _ _ _) (.inr ?_)) (.inr ?_)
    · rw [length_pdptData]
    · rw [length_pml4Data]
      decide

theorem boot_tables_map_kernel : ∃ w, mmuWalk bootMem 4 0x101000 (kernelVma + 0x123456) = some w ∧
    w.frame (kernelVma + 0x123456) + 0x456 = 0x123456 := by
  obtain ⟨hiff, hall⟩ := boot_tables_map bootMem_tables (.inr (by decide) : _ ∨ 2 ^ 64 - 2 ^ 47 ≤ kernelVma + 0x123456 ∧ _)
  obtain ⟨w, hw⟩ := hiff.2 ⟨_, .tail _ (.tail _ (.tail _ (.head _))), 0x123456, by decide, rfl⟩
  exact ⟨w, hw, (hall w hw).1⟩

/-! ## Leaving them -/

/-- Where the memory of the window of the kernel is found. -/
theorem BootTables.translate (h : BootTables m pml4) {f : Nat} (hf : f < bootMappedEnd) (hal : f % 4096 = 0) :
    translate m pml4 (add64 f kernelVma) = some f := by
  have hva : add64 f kernelVma = kernelVma + f := by
    unfold bootMappedEnd at hf
    rw [add64_of_lt (by unfold kernelVma; omega), Nat.add_comm]
  have hcanon : kernelVma + f < 2 ^ 47 ∨ 2 ^ 64 - 2 ^ 47 ≤ kernelVma + f ∧ kernelVma + f < 2 ^ 64 := by
    unfold bootMappedEnd at hf
    unfold kernelVma
    omega
  have hmapped : (vaIndex (kernelVma + f) 3 = 0 ∨ vaIndex (kernelVma + f) 3 = 511) ∧ _ :=
    (bootMapped_iff_index hcanon).1 ((bootMapped_iff_window hcanon).2
      ⟨_, .tail _ (.tail _ (.tail _ (.head _))), f, hf, rfl⟩)
  have hframe : (bootWalk pml4 (kernelVma + f)).leaf.frame = _ := (mapsPage hmapped.2.2).frame
  have hlevel : (bootWalk pml4 (kernelVma + f)).level = 1 := rfl
  rw [hva, Memory.translate, h.walk, if_pos hmapped, Option.map_some, Walk.frame, hframe, hlevel]
  unfold bootMappedEnd at hf
  unfold vaIndex kernelVma
  refine congrArg some ?_
  omega

/-- The kernel leaves the boot tables for its own ones after `page_in_regions` has laid these from a zeroed PML4. A
frame that the boot tables show in the window of the kernel is still there if and only if its page of 2 MiB starts in a
region of available memory. -/
theorem frame_kept_iff {boot fuel : Nat} {mmap : MemMap} (hboot : BootTables m boot) (hok : Servable 3 mmap)
    (haligned : pml4 % 4096 = 0) (hfree : pml4 ∉ mmap.free) (hzero : ∀ i, i < 512 → entryAt m pml4 i = 0)
    (hfuel : 1024 < fuel) :
    ∃ err m' mmap', pageInRegions fuel pml4 mmap.regions m mmap = .ok (err, m', mmap') ∧
      (err = 0 → ∀ f < bootMappedEnd, f % 4096 = 0 →
        (Memory.translate m' pml4 (add64 f kernelVma) = Memory.translate m boot (add64 f kernelVma) ↔
          ∃ r ∈ mmap.regions, r.startAddr ≤ alignDown f hugePs ∧ alignDown f hugePs < r.startAddr + r.lenBytes)) := by
  have hnone := mmuWalk_zeroed hzero
  have hmissing : missingTables m pml4 = 3 := by
    unfold missingTables
    rw [hzero 511 (by decide)]
    rfl
  obtain ⟨err, m', mmap', he, hdone⟩ := pageInRegions_laid (fun va w hw => by rw [hnone va] at hw; cases hw) hfuel
    mmap.regions (fun r hr => ⟨hok.shaped.nonempty r hr, hok.low r hr⟩)
    ⟨3, .start (Built.zeroed hok haligned hfree hzero), hmissing.le⟩
  refine ⟨err, m', mmap', he, fun h0 f hf hal => ?_⟩
  obtain ⟨n, h, -⟩ := hdone h0
  rw [Set.empty_union] at h
  have hlt : f < 2 ^ 31 := hf.trans (by decide)
  have hdown : alignDown f hugePs = f / 2 ^ 21 * 2 ^ 21 := alignDown_two_pow (k := 21) (by omega) (by decide)
  have hpage := direct_page hlt
  rw [hboot.translate hf hal, hdown]
  constructor
  · intro hmap
    by_contra hout
    -- no page was laid over it, so it is as absent as before
    have hnot : vaPrefix (add64 f kernelVma) 1 ∉ regionPages mmap.regions := by
      rw [hpage]
      rintro ⟨r, hr, j, h1, h2, hj⟩
      exact hout ⟨r, hr, by omega, by omega⟩
    have hkept := h.kept (add64 f kernelVma) hnot
    rw [hnone] at hkept
    unfold Memory.translate at hmap
    rw [hkept.eq_none] at hmap
    cases hmap
  · rintro ⟨r, hr, h1, h2⟩
    have hin : vaPrefix (add64 f kernelVma) 1 ∈ regionPages mmap.regions := by
      rw [hpage]
      exact ⟨r, hr, f / 2 ^ 21, by omega, by omega, rfl⟩
    obtain ⟨w, hw, hmaps⟩ := h.mapped (add64 f kernelVma) hin
    rw [directTarget_page hlt] at hmaps
    unfold Memory.translate
    rw [hw, Option.map_some, hmaps.frame (by decide) (Nat.mul_mod_left ..) (by omega),
      show 12 + 9 * 1 = 21 from rfl, direct_offset hlt]
    refine congrArg some ?_
    omega

/-- With 16 frames from 2 MiB on the first of these is found again. -/
theorem frame_kept_iff_sixteenFrames :
    ∃ m' mmap', pageInRegions 1025 0x1000 (sixteenFrames 0x200000).regions bootMem (sixteenFrames 0x200000) =
      .ok (0, m', mmap') ∧ Memory.translate m' 0x1000 (add64 0x200000 kernelVma) =
        Memory.translate bootMem 0x101000 (add64 0x200000 kernelVma) := by
  have hfree : 0x1000 ∉ (sixteenFrames 0x200000).free := by
    rintro ⟨r, hr, k, -, hk, -⟩
    obtain rfl := List.mem_singleton.1 hr
    dsimp only at hk
    omega
  have hzero : ∀ i, i < 512 → entryAt bootMem 0x1000 i = 0 := by
    intro i hi
    rw [← entryAt_zero 0x1000 i]
    exact Mem.load_congr fun x h1 h2 => bootMem_low (by omega)
  obtain ⟨err, m', mmap', he, hiff⟩ := frame_kept_iff bootMem_tables
    (sixteenFrames_servable (show 0x200000 % 4096 = 0 by decide) (by decide)) (by decide) hfree hzero
    (show 1024 < 1025 by decide)
  have hret : (pageInRegions 1025 0x1000 (sixteenFrames 0x200000).regions bootMem
      (sixteenFrames 0x200000)).toOption.map Prod.fst = some 0 := by decide +kernel
  rw [he] at hret
  obtain rfl : err = 0 := Option.some.inj hret
  have hkept := (hiff rfl 0x200000 (by decide) (by decide)).2 ⟨_, List.mem_singleton_self _, by decide, by decide⟩
  exact ⟨m', mmap', he, hkept⟩

end

end Icarus.Boot
