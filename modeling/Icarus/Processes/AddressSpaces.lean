/-
The address spaces of the kernel and of its threads: every thread starts with a copy of the root table that
CR3 holds, and from then on `page_in` works on one root at a time. The tables under the slots the kernel had
at the start stay shared.
-/
import Icarus.Memory.FirstFit
import Icarus.Processes.Creation
import Icarus.Processes.RunQueue

namespace Icarus.Processes

open Icarus.Base Icarus.Memory

/-! ## Runs -/

/-- The kernel with the root tables of all address spaces, its own the last in the list. -/
structure AddressSpaces where
  kernel : Kernel
  roots : List Nat

/-- What happens to the address spaces. -/
inductive SpacesStep : AddressSpaces → AddressSpaces → Prop
  /-- `create_thread` makes a thread -/
  | create {k k' : Kernel} {roots : List Nat} {isPrivileged : Bool} {priority : BitVec 16} {p : TcbPtr} :
      createThread isPrivileged priority k = .ok (some p, k') →
        SpacesStep ⟨k, roots⟩ ⟨k', (k'.sched.tcbs p).pageTable :: roots⟩
  /-- `create_thread` returns `NULL` -/
  | refuse {k k' : Kernel} {roots : List Nat} {isPrivileged : Bool} {priority : BitVec 16} :
      createThread isPrivileged priority k = .ok (none, k') → SpacesStep ⟨k, roots⟩ ⟨k', roots⟩
  /-- the scheduler runs and loads one of the roots -/
  | load {k : Kernel} {roots : List Nat} {sched : Sched} : sched.cr3 ∈ roots →
      SpacesStep ⟨k, roots⟩ ⟨{ k with sched }, roots⟩
  /-- `page_in` of a 4 KiB page, outside large pages -/
  | map {k : Kernel} {roots : List Nat} {root va pa permissions : Nat} {r : Int} {mem : Mem} {mmap : MemMap} :
      root ∈ roots → NoLarge k.mem 4 root va →
        pageIn (iallocKframe · 1) root va pa defaultPageSize permissions k.mem k.mmap = (r, mem, mmap) →
          SpacesStep ⟨k, roots⟩ ⟨{ k with mem, mmap }, roots⟩

/-- Any number of steps. -/
abbrev SpacesRun : AddressSpaces → AddressSpaces → Prop := Relation.ReflTransGen SpacesStep

/-- Two root entries that lead to the same table. -/
def SameTable (e e' : Entry) : Prop := e.present = true ∧ e'.present = true ∧ e'.pagePpn = e.pagePpn

/-- The roots share the tables under the slots that were present in the memory `m₀` of the start. -/
structure Shared (m₀ : Mem) (kernelRoot : Nat) (spaces : AddressSpaces) (T : Tables) : Prop where
  wf : T.WF spaces.kernel.mem
  apart : T.Apart memMapSource spaces.kernel.mmap
  root : ∀ r ∈ spaces.roots, T.level r = 4
  home : kernelRoot ∈ spaces.roots
  cr3 : spaces.kernel.sched.cr3 ∈ spaces.roots
  slots : ∀ r ∈ spaces.roots, ∀ i, i < 512 → (entryAt m₀ kernelRoot i).present = true →
    SameTable (entryAt spaces.kernel.mem kernelRoot i) (entryAt spaces.kernel.mem r i)

section
variable {m₀ : Mem} {kernelRoot : Nat} {spaces spaces' : AddressSpaces} {T : Tables}

/-- A new thread shares what the table in CR3 shares. -/
theorem Shared.create {k k' : Kernel} {roots : List Nat} {isPrivileged : Bool} {priority : BitVec 16} {addr : Nat}
    {p : TcbPtr} {root : Nat} (h : Shared m₀ kernelRoot ⟨k, roots⟩ T)
    (hc : Created isPrivileged priority k k' addr p root) :
    Shared m₀ kernelRoot ⟨k', root :: roots⟩ (T.insert root 4 (T.pre k.sched.cr3)) := by
  obtain ⟨hnew, hcopy, hwf, hapart⟩ := hc.tables h.wf h.apart (h.root _ h.cr3)
  have hold : ∀ r ∈ roots, r ≠ root := by
    rintro r hr rfl
    have hr4 := h.root r hr
    omega
  have hkept : ∀ r ∈ roots, ∀ j, j < 512 → entryAt k'.mem r j = entryAt k.mem r j := fun r hr j hj =>
    entryAt_of_frame h.wf hnew hc.mem (by rw [h.root r hr]; decide) hj
  refine ⟨hwf, hapart, ?_, ?_, ?_, ?_⟩
  · intro r hr
    rcases List.mem_cons.1 hr with rfl | hr
    · exact Tables.level_insert_self
    · exact (Tables.level_insert_of_ne (hold r hr)).trans (h.root r hr)
  · exact List.mem_cons_of_mem _ h.home
  · rw [show k'.sched.cr3 = k.sched.cr3 by rw [hc.sched]; rfl]
    exact List.mem_cons_of_mem _ h.cr3
  · intro r hr i hi hp
    rw [hkept _ h.home i hi]
    rcases List.mem_cons.1 hr with rfl | hr
    · rw [hcopy i hi]
      exact h.slots _ h.cr3 i hi hp
    · rw [hkept r hr i hi]
      exact h.slots r hr i hi hp

/-- `page_in` leaves the slots that are there where they lead. -/
theorem Shared.map {k : Kernel} {roots : List Nat} {root va pa permissions : Nat} {r : Int} {mem : Mem} {mmap : MemMap}
    (h : Shared m₀ kernelRoot ⟨k, roots⟩ T) (hroot : root ∈ roots) (hlarge : NoLarge k.mem 4 root va)
    (hpage : pageIn (iallocKframe · 1) root va pa defaultPageSize permissions k.mem k.mmap = (r, mem, mmap)) :
    ∃ T', Shared m₀ kernelRoot ⟨{ k with mem, mmap }, roots⟩ T' := by
  have hlevel := h.root root hroot
  obtain ⟨r', mem', mmap', T', hpage', hp⟩ :=
    @pageIn_spec MemMap memMapSource T k.mem k.mmap root va pa permissions h.wf h.apart hlevel hlarge
  have hsame : (r, mem, mmap) = (r', mem', mmap') := hpage.symm.trans hpage'
  cases hsame
  refine ⟨T', hp.wf h.wf hlevel, hp.apart h.apart, ?_, h.home, h.cr3, ?_⟩
  · intro x hx
    have hx4 := h.root x hx
    exact (hp.le x (by omega)).1.trans hx4
  · intro x hx i hi hpresent
    obtain ⟨h1, h2, h3⟩ := h.slots x hx i hi hpresent
    have hkernel4 := h.root _ h.home
    have hx4 := h.root x hx
    have hw := hp.kept h.wf hlevel (by omega) hi h1
    have hw' := hp.kept h.wf hlevel (by omega) hi h2
    exact ⟨by rw [hw.present, h1], by rw [hw'.present, h2], by rw [hw.pagePpn, hw'.pagePpn, h3]⟩

theorem Shared.step (h : Shared m₀ kernelRoot spaces T) (hstep : SpacesStep spaces spaces') :
    ∃ T', Shared m₀ kernelRoot spaces' T' := by
  cases hstep with
  | create hcreate =>
    obtain ⟨addr, root, hc⟩ := created_of_some h.apart.ok hcreate
    rw [hc.sched, Sched.tcbs_modify_self]
    exact ⟨_, h.create hc⟩
  | refuse hcreate =>
    rcases createThread_eq_ok h.apart.ok hcreate with ⟨-, -, rfl⟩ | ⟨addr, p, root, hp, -⟩
    · exact ⟨T, h⟩
    · cases hp
  | load hcr3 => exact ⟨T, h.wf, h.apart, h.root, h.home, hcr3, h.slots⟩
  | map hroot hlarge hpage => exact h.map hroot hlarge hpage

theorem Shared.run (h : Shared m₀ kernelRoot spaces T) (hrun : SpacesRun spaces spaces') :
    ∃ T', Shared m₀ kernelRoot spaces' T' := by
  induction hrun with
  | refl => exact ⟨T, h⟩
  | tail _ hstep ih =>
    obtain ⟨T', h'⟩ := ih
    exact h'.step hstep

/-- A root entry never ends a walk: two roots whose entries lead to the same table translate alike. -/
theorem translate_eq_of_sameTable {m : Mem} {r r' va : Nat} (hwf : T.WF m) (hr : T.level r = 4) (hr' : T.level r' = 4)
    (h : SameTable (entryAt m r (vaIndex va 3)) (entryAt m r' (vaIndex va 3))) :
    translate m r' va = translate m r va := by
  obtain ⟨h1, h2, h3⟩ := h
  have hi := vaIndex_lt va 3
  have hopen : ∀ e : Entry, ¬e.EndsWalk 3 := by
    rintro e (h0 | ⟨h0, -⟩) <;> omega
  have hframe : (entryAt m r' (vaIndex va 3)).frame = (entryAt m r (vaIndex va 3)).frame := by
    rw [Entry.frame_eq (hwf.reserved r _ (by omega) hi), Entry.frame_eq (hwf.reserved r' _ (by omega) hi), h3]
  unfold Icarus.Memory.translate
  rw [mmuWalk_table h1 (hopen _), mmuWalk_table h2 (hopen _), hframe, Option.map_map, Option.map_map]
  rfl

/-- The kernel half is shared: after any run of thread creations, of switches between the address spaces and of
`page_in` calls through any of their roots, every address in a slot the kernel's root had at the start has one
and the same translation in all of them. -/
theorem kernel_half_shared {k : Kernel} (hwf : T.WF k.mem) (hapart : T.Apart memMapSource k.mmap)
    (hroot : T.level k.sched.cr3 = 4) (hrun : SpacesRun ⟨k, [k.sched.cr3]⟩ spaces) :
    ∀ root ∈ spaces.roots, ∀ va, (entryAt k.mem k.sched.cr3 (vaIndex va 3)).present = true →
      translate spaces.kernel.mem root va = translate spaces.kernel.mem k.sched.cr3 va := by
  have hstart : Shared k.mem k.sched.cr3 ⟨k, [k.sched.cr3]⟩ T := by
    refine ⟨hwf, hapart, ?_, List.mem_singleton_self _, List.mem_singleton_self _, ?_⟩
    · intro r hr
      rw [List.mem_singleton.1 hr]
      exact hroot
    · intro r hr i hi hp
      rw [List.mem_singleton.1 hr]
      exact ⟨hp, hp, rfl⟩
  obtain ⟨T', h⟩ := hstart.run hrun
  intro root hin va hp
  exact translate_eq_of_sameTable h.wf (h.root _ h.home) (h.root root hin)
    (h.slots root hin _ (vaIndex_lt va 3) hp)

end

/-! ## A kernel with one slot -/

/-- A root table at 0x1000 with an empty table behind its last slot. -/
def bootTables : Tables where
  level f := if f = 0x1000 then 4 else if f = 0x2000 then 3 else 0
  pre _ := 0

/-- A kernel that uses these tables. -/
def bootKernel : Kernel where
  mem := setEntry (fun _ => 0) 0x1000 511 0x2003#64
  mmap := threeFrames
  heap := ⟨smallHeap, []⟩
  sched := { idle with cr3 := 0x1000 }
  tidGen := 0
  pidGen := 0

theorem bootTables_wf : bootTables.WF bootKernel.mem := by
  have hzero : bootTables.WF fun _ => 0 := by
    refine ⟨?_, ?_, ?_⟩
    · intro f hf
      simp only [bootTables] at hf
      split_ifs at hf with h1 h2
      · rw [h1]
      · rw [h2]
      · exact absurd rfl hf
    · rintro f i - -
      rw [entryAt_zero]
      rfl
    · rintro f i l - - hp
      rw [entryAt_zero] at hp
      cases hp
  exact hzero.setEntry (l := 3) rfl (by decide) (by decide +kernel) fun _ _ => by decide +kernel

theorem bootKernel_apart : bootTables.Apart memMapSource bootKernel.mmap := by
  have hlow : threeFrames.Low := by
    intro r hr
    rw [List.mem_singleton.1 hr]
    decide
  refine ⟨⟨threeFrames_wf, hlow⟩, ?_⟩
  intro f hf
  obtain ⟨r, hr, k, -, rfl, -⟩ := hf
  rw [List.mem_singleton.1 hr]
  show (if _ then _ else _) = _
  rw [if_neg (by dsimp only; omega), if_neg (by dsimp only; omega)]

/-- One `page_in` behind the last slot of the kernel's root. -/
def mappedKernel : Kernel :=
  let (_, mem, mmap) := pageIn (iallocKframe · 1) 0x1000 0xFFFFFF8000000000 0x5000 defaultPageSize writeable
    bootKernel.mem bootKernel.mmap
  { bootKernel with mem, mmap }

/-- A thread made after it sees what it mapped. -/
theorem kernel_half_shared_oneThread : ∃ p k', createThread true 1 mappedKernel = .ok (some p, k') ∧
    translate k'.mem (k'.sched.tcbs p).pageTable 0xFFFFFF8000000000 = translate k'.mem 0x1000 0xFFFFFF8000000000 := by
  obtain ⟨p, k', hcreate⟩ : ∃ p k', createThread true 1 mappedKernel = .ok (some p, k') := by
    have hserved : okAnd (createThread true 1 mappedKernel) (fun r => r.1.isSome) = true := by decide +kernel
    obtain ⟨⟨tcb, k'⟩, hcreate, hsome⟩ := okAnd_eq_true.1 hserved
    obtain ⟨p, rfl⟩ := Option.isSome_iff_exists.1 hsome
    exact ⟨p, k', hcreate⟩
  have hlarge : NoLarge bootKernel.mem 4 0x1000 0xFFFFFF8000000000 := by
    have hempty : mmuWalk bootKernel.mem 4 0x1000 0xFFFFFF8000000000 = none := by decide +kernel
    intro w hw
    rw [hempty] at hw
    cases hw
  have hmap : SpacesStep ⟨bootKernel, [0x1000]⟩ ⟨mappedKernel, [0x1000]⟩ := by
    unfold mappedKernel
    generalize hpage : pageIn (iallocKframe · 1) 0x1000 0xFFFFFF8000000000 0x5000 defaultPageSize writeable
      bootKernel.mem bootKernel.mmap = result
    obtain ⟨r, mem, mmap⟩ := result
    exact .map (List.mem_singleton_self _) hlarge hpage
  have hrun : SpacesRun ⟨bootKernel, [0x1000]⟩ ⟨k', [(k'.sched.tcbs p).pageTable, 0x1000]⟩ :=
    (Relation.ReflTransGen.single hmap).tail (.create hcreate)
  exact ⟨p, k', hcreate, kernel_half_shared bootTables_wf bootKernel_apart rfl hrun _ List.mem_cons_self _
    (by decide +kernel)⟩

end Icarus.Processes
