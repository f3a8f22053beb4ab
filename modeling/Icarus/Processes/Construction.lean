/-
What `init_process` does, from the first block it asks the heap for to the point where it returns: the
thread it makes, the memory it supplies, and what it gives back when a part of that is missing.
-/
import Mathlib
import Icarus.Processes.Creation
import Icarus.Processes.RunQueue
import Icarus.Processes.Supply

namespace Icarus.Processes

open Icarus.Base Icarus.Memory

/-! ## Blocks of an intact heap -/

/-- The headers of the heap tile it, and every block in use has one. -/
def HeapIntact (r : HeapRun) : Prop := ∃ start stop bs, HeapInv start stop bs r

/-- A block of an intact heap is at a new address, and not at `NULL`. -/
theorem HeapIntact.alloc {r : HeapRun} {fuel size addr : Nat} {heap : Heap} (h : HeapIntact r) (hsize : size < 2 ^ 32)
    (hok : imallocAlocator fuel r.heap size = .ok (some (addr, heap))) :
    HeapIntact ⟨heap, (addr, size) :: r.live⟩ ∧ 16 ≤ addr ∧ addr < 2 ^ 64 ∧ ∀ b ∈ r.live, b.1 ≠ addr := by
  obtain ⟨start, stop, bs, hinv⟩ := h
  obtain ⟨bs', hinv'⟩ := hinv.alloc (by omega) hok
  obtain ⟨h1, h2, -, h3⟩ := hinv'.held _ (List.mem_cons_self ..)
  have hle := hinv'.tiled.bounds h2
  have hbound := hinv'.bound
  have hdistinct := (List.pairwise_cons.1 hinv'.distinct).1
  refine ⟨⟨start, stop, bs', hinv'⟩, h1, ?_, fun b hb => (hdistinct b hb).symm⟩
  dsimp only at h1 hle h3
  omega

/-- The control block at such an address. -/
theorem tcbAtAddr_eq {addr : Nat} (h1 : 16 ≤ addr) (h2 : addr < 2 ^ 64) :
    ∃ p, tcbAtAddr addr = .ok p ∧ p ≠ .dummy ∧ p.heapAddr = addr := by
  have hne : BitVec.ofNat 64 addr ≠ 0 := by
    intro h0
    have hnat := congrArg BitVec.toNat h0
    rw [BitVec.toNat_ofNat, Nat.mod_eq_of_lt h2] at hnat
    exact absurd hnat (by show addr ≠ 0; omega)
  refine ⟨.thread ⟨BitVec.ofNat 64 addr, hne⟩, dif_pos hne, ?_, ?_⟩
  · intro h
    cases h
  · show (BitVec.ofNat 64 addr).toNat = addr
    rw [BitVec.toNat_ofNat, Nat.mod_eq_of_lt h2]

/-! ## Memory for no thread -/

/-- What supplying a sub-space of no thread leaves when it returns: nothing has happened, or a frame is gone. -/
inductive Wasted (pages : Nat) (k : Kernel) : Kernel → Prop
  | refused : 510 < pages → Wasted pages k k
  | lost {mem : Mem} (n : Nat) : pages ≤ 510 → (memMapSource.alloc k.mmap).1 ≠ frameAllocFailed →
      (∀ a, a / 4096 * 4096 ∉ k.mmap.free → mem a = k.mem a) →
        Wasted pages k { k with mem, mmap := memMapSource.after (n + 1) k.mmap }

/-- A list nobody uses. -/
theorem wasted_of_listed {pages info : Nat} {k : Kernel} {m : Mem} {mmap : MemMap} (hok : memMapSource.Ok k.mmap)
    (hfew : pages ≤ 510) (h : Listed pages info k.mem k.mmap m mmap) : Wasted pages k { k with mem := m, mmap } := by
  obtain ⟨n, hn⟩ := h.taken
  have hgiven : (memMapSource.alloc k.mmap).1 ≠ frameAllocFailed := by
    rw [h.first.1]
    exact h.first.2
  rw [hn]
  exact .lost n hfew hgiven fun a ha => h.fill hok ha

theorem threadSupplyNewMemRegion_none {sub : AddrSubSpace} {pages pSize permissions : Nat} {k k' : Kernel}
    {r : Option Nat} (hok : memMapSource.Ok k.mmap)
    (h : threadSupplyNewMemRegion none sub pages pSize permissions k = .ok (r, k')) : Wasted pages k k' := by
  have htype := pageTypeToSize_pageTypeToSize (u32 pSize)
  unfold threadSupplyNewMemRegion at h
  dsimp only at h
  rcases @iallocFrames_spec _ k.mem k.mmap htype hok pages with ⟨x, m, mmap, he, hlisting⟩ | ⟨-, -, he⟩
  · rw [he] at h
    cases hlisting with
    | refused hmany =>
      cases h
      exact .refused hmany
    | missing hfew hlisted _ =>
      cases h
      exact wasted_of_listed hok hfew hlisted
    | listed hfew hlisted _ _ =>
      dsimp only [bind, Except.bind] at h
      unfold threadSupplyMemRegion supplyLoop at h
      dsimp only at h
      rw [hlisted.list.count] at h
      by_cases h0 : 0 < pages
      · -- the first page is looked for in the control block at `NULL`
        rw [if_pos h0] at h
        cases h
      · rw [if_neg h0] at h
        cases h
        exact wasted_of_listed hok hfew hlisted
  · rw [he] at h
    cases h

/-- Too many pages are refused without more ado. -/
theorem threadSupplyNewMemRegion_refused {thread : Option TcbPtr} {sub : AddrSubSpace} {pages pSize permissions : Nat}
    {k : Kernel} (h : 510 < pages) : threadSupplyNewMemRegion thread sub pages pSize permissions k = .ok (none, k) := by
  have hcall : iallocFrames pages (pageTypeToSize (u32 pSize)) k.mem k.mmap = .ok (none, k.mem, k.mmap) := if_pos h
  unfold threadSupplyNewMemRegion
  dsimp only
  rw [hcall]
  rfl

section
variable {k k' : Kernel} {pages : Nat}

theorem Wasted.rest (h : Wasted pages k k') : k' = { k with mem := k'.mem, mmap := k'.mmap } := by
  cases h <;> rfl

theorem Wasted.free (h : Wasted pages k k') (hok : memMapSource.Ok k.mmap) :
    memMapSource.Ok k'.mmap ∧ k'.mmap.free ⊆ k.mmap.free ∧ (pages ≤ 510 → ∃ f ∈ k.mmap.free, f ∉ k'.mmap.free) := by
  cases h with
  | refused hmany => exact ⟨hok, subset_rfl, fun hfew => by omega⟩
  | lost n _ hgiven _ =>
    refine ⟨memMapSource.ok_after hok _, memMapSource.free_after hok _, fun _ => ?_⟩
    rcases memMapSource.fresh k.mmap hok with hf | ⟨hin, hout⟩
    · exact absurd hf hgiven
    · exact ⟨_, hin, fun hfree => hout (memMapSource.free_after (memMapSource.ok _ hok) n hfree)⟩

end

theorem threadSupplyNewMem_none {info : AllocationInfo} {perms : PermissionInfo} {k k' : Kernel} {r : Int}
    {supply : SupplyBlock} (hok : memMapSource.Ok k.mmap)
    (h : threadSupplyNewMem none info perms k = .ok (r, supply, k')) :
    ∃ k₁ k₂, Wasted info.codePages k k₁ ∧ Wasted info.mappingPages k₁ k₂ ∧ Wasted info.stackPages k₂ k' := by
  unfold threadSupplyNewMem at h
  obtain ⟨⟨r₁, k₁⟩, h₁, h⟩ := bind_eq_ok.1 h
  obtain ⟨⟨r₂, k₂⟩, h₂, h⟩ := bind_eq_ok.1 h
  obtain ⟨⟨r₃, k₃⟩, h₃, h⟩ := bind_eq_ok.1 h
  cases h
  have hw₁ := threadSupplyNewMemRegion_none hok h₁
  have hok₁ := (hw₁.free hok).1
  have hw₂ := threadSupplyNewMemRegion_none hok₁ h₂
  exact ⟨k₁, k₂, hw₁, hw₂, threadSupplyNewMemRegion_none (hw₂.free hok₁).1 h₃⟩

theorem threadSupplyNewMem_refused {thread : Option TcbPtr} {info : AllocationInfo} {perms : PermissionInfo} {k : Kernel}
    (h : ∀ sub, 510 < info.pages sub) :
    threadSupplyNewMem thread info perms k = .ok (-1, ⟨none, none, none⟩, k) := by
  have hcode : 510 < info.codePages := h .code
  have hmapping : 510 < info.mappingPages := h .mapping
  have hstack : 510 < info.stackPages := h .stack
  unfold threadSupplyNewMem
  rw [threadSupplyNewMemRegion_refused hcode]
  dsimp only [bind, Except.bind]
  rw [threadSupplyNewMemRegion_refused hmapping]
  dsimp only
  rw [threadSupplyNewMemRegion_refused hstack]
  rfl

/-! ## Giving the parts back -/

section
variable {T : Tables} {k : Kernel}

/-- Giving a list back, or nothing, leaves the tables apart and the lists of other frames in use. -/
theorem ideallocPart_spec (hs : T.Apart memMapSource k.mmap) {part : Option Nat} {count : Nat} {F : Set Nat}
    (hl : ∀ x, part = some x → HeldList T k.mem k.mmap x count F) :
    ideallocPart part k = { k with mmap := (ideallocPart part k).mmap } ∧
      T.Apart memMapSource (ideallocPart part k).mmap ∧
        ∀ y n G, HeldList T k.mem k.mmap y n G → (part ≠ none → Disjoint F G) →
          HeldList T k.mem (ideallocPart part k).mmap y n G := by
  cases part with
  | none => exact ⟨rfl, hs, fun _ _ _ h _ => h⟩
  | some x =>
    have h := hl x rfl
    obtain ⟨mmap', he, hwf, hsame, hfree⟩ := ideallocFrames_spec h.lists hs.ok.1 fun f hf => (h.held f hf).2
    have hpart : ideallocPart (some x) k = { k with mmap := mmap' } := by
      show { k with mmap := (ideallocFrames k.mem x k.mmap).2 } = _
      rw [he]
    have hframes := hsame.frames
    rw [hpart]
    refine ⟨rfl, ⟨⟨hwf, hs.ok.2.same hsame.same⟩, ?_⟩, ?_⟩
    · intro f hf
      rcases (Set.ext_iff.1 hfree f).1 hf with hf | hf
      · exact hs.free f hf
      · exact (h.held f hf).1
    · intro y n G hy hdisjoint
      refine ⟨hy.small, hy.aligned, hy.mem, hy.lists, ?_⟩
      intro f hf
      obtain ⟨h1, h2, h3⟩ := hy.held f hf
      refine ⟨h1, (Set.ext_iff.1 hframes f).2 h2, ?_⟩
      intro hin
      rcases (Set.ext_iff.1 hfree f).1 hin with hin | hin
      · exact h3 hin
      · exact Set.disjoint_left.1 (hdisjoint (Option.some_ne_none x)) hin hf

/-- The three parts, the code first. -/
def ideallocSupply (supply : SupplyBlock) (k : Kernel) : Kernel :=
  ideallocPart supply.stackMemory (ideallocPart supply.mappingMemory (ideallocPart supply.codeMemory k))

theorem ideallocSupply_spec (hs : T.Apart memMapSource k.mmap) {supply : SupplyBlock} {pages : AddrSubSpace → Nat}
    {F : AddrSubSpace → Set Nat}
    (hl : ∀ sub x, supply.part sub = some x → HeldList T k.mem k.mmap x (pages sub) (F sub))
    (hdisjoint : ∀ a b, a ≠ b → supply.part a ≠ none → supply.part b ≠ none → Disjoint (F a) (F b)) :
    ideallocSupply supply k = { k with mmap := (ideallocSupply supply k).mmap } ∧
      T.Apart memMapSource (ideallocSupply supply k).mmap := by
  obtain ⟨h₁, hs₁, hkeep₁⟩ := @ideallocPart_spec T k hs supply.codeMemory _ _ (hl .code)
  have hmem₁ : (ideallocPart supply.codeMemory k).mem = k.mem := by rw [h₁]
  have hmapping : ∀ x, supply.mappingMemory = some x → HeldList T (ideallocPart supply.codeMemory k).mem
      (ideallocPart supply.codeMemory k).mmap x (pages .mapping) (F .mapping) := by
    intro x hx
    rw [hmem₁]
    refine hkeep₁ x _ _ (hl .mapping x hx) fun hc => hdisjoint .code .mapping (by decide) hc ?_
    rw [show supply.part .mapping = some x from hx]
    exact Option.some_ne_none x
  obtain ⟨h₂, hs₂, hkeep₂⟩ := ideallocPart_spec hs₁ hmapping
  have hmem₂ : (ideallocPart supply.mappingMemory (ideallocPart supply.codeMemory k)).mem = k.mem := by
    rw [h₂]
    exact hmem₁
  have hstack : ∀ x, supply.stackMemory = some x → HeldList T
      (ideallocPart supply.mappingMemory (ideallocPart supply.codeMemory k)).mem
        (ideallocPart supply.mappingMemory (ideallocPart supply.codeMemory k)).mmap x (pages .stack) (F .stack) := by
    intro x hx
    have hx' : supply.part .stack ≠ none := by
      rw [show supply.part .stack = some x from hx]
      exact Option.some_ne_none x
    have hkept := hkeep₁ x _ _ (hl .stack x hx) fun hc => hdisjoint .code .stack (by decide) hc hx'
    rw [← hmem₁] at hkept
    have hkept' := hkeep₂ x _ _ hkept fun hm => hdisjoint .mapping .stack (by decide) hm hx'
    rwa [hmem₁, ← hmem₂] at hkept'
  obtain ⟨h₃, hs₃, -⟩ := ideallocPart_spec hs₂ hstack
  refine ⟨?_, hs₃⟩
  unfold ideallocSupply
  rw [h₃, h₂, h₁]

end

/-! ## The thread and its memory -/

/-- The frames for the root table and for the memory of the thread are there. -/
def CanSpawn (info : AllocationInfo) (k : Kernel) : Prop :=
  (∀ sub, info.pages sub ≤ 510) ∧ memMapSource.Serves (1 + supplyFrames k.mem k.sched.cr3 info) k.mmap

/-- A thread was made in a block at its address, and memory was supplied to it. -/
structure Spawned (isPrivileged : Bool) (priority : BitVec 16) (info : AllocationInfo) (k : Kernel) (T : Tables)
    (p : TcbPtr) (root : Nat) (supply : SupplyBlock) (T' : Tables) (t : Tcb) (k' : Kernel) : Prop where
  real : p ≠ .dummy
  fresh : ∀ b ∈ k.heap.live, b.1 ≠ p.heapAddr
  created : ∃ k₁, Created isPrivileged priority k k₁ p.heapAddr p root ∧
    Supplied root info (T.insert root 4 (T.pre k.sched.cr3)) k₁.mem k₁.mmap (k₁.sched.tcbs p) supply T' k'.mem k'.mmap t
  block : ∃ heap, imallocAlocator (k.heap.heap.limit + 1) k.heap.heap tcbSize = .ok (some (p.heapAddr, heap)) ∧
    k'.heap = ⟨heap, (p.heapAddr, tcbSize) :: k.heap.live⟩
  sched : k'.sched = k.sched.modify p fun _ => t
  served : T.Placed k.mem → T.pre k.sched.cr3 = 0 → ((∀ sub, supply.part sub ≠ none) ↔ CanSpawn info k)

section
variable {k k' k₁ : Kernel} {isPrivileged : Bool} {priority : BitVec 16} {info : AllocationInfo} {perms : PermissionInfo}
variable {T : Tables} {addr root : Nat} {p : TcbPtr}

/-- What the new root takes is what the table in CR3 would take. -/
theorem Created.canSpawn_iff (h : Created isPrivileged priority k k₁ addr p root) (hwf : T.WF k.mem)
    (hs : T.Apart memMapSource k.mmap) (hcr3 : T.level k.sched.cr3 = 4)
    (hclear : ∀ sub, Clear k.mem (subSpaceToAddr sub) 3 k.sched.cr3) :
    (∀ sub, Clear k₁.mem (subSpaceToAddr sub) 3 root) ∧ (CanSupply k₁.mem k₁.mmap root info ↔ CanSpawn info k) := by
  obtain ⟨hnew, hcopy, -⟩ := h.tables hwf hs hcr3
  have hways := fun sub => copied_way hwf hnew hcr3 h.mem hcopy (hclear sub)
  have hregion : ∀ sub n, regionFrames k₁.mem root sub n = regionFrames k.mem k.sched.cr3 sub n := by
    intro sub n
    unfold regionFrames
    rw [(hways sub).2]
  have hframes : supplyFrames k₁.mem root info = supplyFrames k.mem k.sched.cr3 info := by
    unfold supplyFrames
    rw [hregion, hregion, hregion]
  refine ⟨fun sub => (hways sub).1, ?_⟩
  unfold CanSupply CanSpawn
  rw [hframes, memMapSource.serves_add]
  refine and_congr_right fun _ => ?_
  have hafter : memMapSource.after 1 k.mmap = k₁.mmap := congrArg Prod.snd h.alloc
  rw [hafter]
  refine (and_iff_right ⟨?_, trivial⟩).symm
  rw [h.alloc]
  exact h.given

theorem spawnAllocThread_spec (hwf : T.WF k.mem) (hs : T.Apart memMapSource k.mmap) (hcr3 : T.level k.sched.cr3 = 4)
    (hclear : ∀ sub, Clear k.mem (subSpaceToAddr sub) 3 k.sched.cr3) (hheap : HeapIntact k.heap)
    (hprio : priority.toNat ≠ uint16Max) (sizes : List Nat) :
    (∃ p root supply T' t k', spawnAllocThread isPrivileged priority info perms k = .ok (some p, supply, k') ∧
        Spawned isPrivileged priority info k T p root supply T' t k') ∨
      (∃ e, spawnAllocThread isPrivileged priority info perms k = .error e) ∧
        (T.Placed k.mem → T.pre k.sched.cr3 = 0 →
          ¬(HeapServes (tcbSize :: sizes) k.heap.heap ∧ CanSpawn info k)) := by
  unfold spawnAllocThread
  cases hblock : imalloc tcbSize k with
  | error e =>
    right
    have hcreate : createThread isPrivileged priority k = .error e := by
      unfold createThread
      rw [if_neg hprio, hblock]
      rfl
    rw [hcreate]
    refine ⟨⟨e, rfl⟩, fun _ _ hcan => ?_⟩
    exact imalloc_error hblock sizes hcan.1
  | ok r =>
    obtain ⟨addr, k₀⟩ := r
    obtain ⟨heap, hok, -⟩ := imalloc_eq_ok.1 hblock
    obtain ⟨-, h16, h64, hfresh⟩ := hheap.alloc (by decide) hok
    obtain ⟨p, hptr, hreal, rfl⟩ := tcbAtAddr_eq h16 h64
    -- with its control block a thread fails for want of a root table only
    rcases @createThread_spec k _ isPrivileged priority _ p hs.ok hprio hblock hptr with
      ⟨root, k₁, hcreate, hc⟩ | ⟨hfail, e, hcreate⟩
    · obtain ⟨hnew, hcopy, hwf₁, hs₁⟩ := hc.tables hwf hs hcr3
      obtain ⟨hclear₁, hcan⟩ := @Created.canSpawn_iff k k₁ _ _ info T _ root p hc hwf hs hcr3 hclear
      have hroot₁ : (T.insert root 4 (T.pre k.sched.cr3)).level root = 4 := Tables.level_insert_self
      have hpre₁ : (T.insert root 4 (T.pre k.sched.cr3)).pre root = T.pre k.sched.cr3 := Function.update_self ..
      have htcb : k₁.sched.tcbs p = newTcb k.tidGen isPrivileged priority root := by
        rw [hc.sched, Sched.tcbs_modify_self]
      rw [hcreate]
      dsimp only [bind, Except.bind]
      rcases @threadSupplyNewMem_spec info perms p root k₁ _ hwf₁ hs₁ hroot₁ (by rw [htcb]; rfl)
        (fun sub => by rw [htcb]; rfl) hclear₁ with ⟨r, supply, m', mmap', T', t', hsupply, hsup⟩ | ⟨⟨e, hsupply⟩, hno⟩
      · left
        rw [hsupply]
        refine ⟨p, root, supply, T', t', _, rfl, hreal, hfresh, ⟨k₁, hc, hsup⟩, hc.block, ?_, ?_⟩
        · show k₁.sched.modify p (fun _ => t') = _
          rw [hc.sched, Sched.modify_modify]
        · intro hpl hpre
          rw [← hcan]
          exact hsup.served (copied_placed hwf hnew hcr3 hc.mem hcopy hpl) (hpre₁.trans hpre)
      · right
        rw [hsupply]
        refine ⟨⟨e, rfl⟩, fun hpl hpre hboth => ?_⟩
        exact hno (copied_placed hwf hnew hcr3 hc.mem hcopy hpl) (hpre₁.trans hpre) (hcan.2 hboth.2)
    · right
      rw [hcreate]
      refine ⟨⟨e, rfl⟩, fun _ _ hcan => ?_⟩
      have hserves := hcan.2.2
      rw [memMapSource.serves_add] at hserves
      exact hserves.1.1 hfail

end

/-! ## `init_process` -/

/-- The heap has the four blocks of a process, and the thread can be made and supplied. -/
def CanInit (args : ProcessArgs) (k : Kernel) : Prop :=
  HeapServes [supplyBlockSize, tcbSize, pcbSize, threadDescriptorSize] k.heap.heap ∧ CanSpawn args.allocationInfo k

/-- Every part of the memory is refused, and the heap serves the supply block and takes it back. -/
def CanRefuse (args : ProcessArgs) (k : Kernel) : Prop :=
  (∀ sub, 510 < args.allocationInfo.pages sub) ∧
    ∃ sp heap heap', imallocAlocator (k.heap.heap.limit + 1) k.heap.heap supplyBlockSize = .ok (some (sp, heap)) ∧
      heapFree heap sp = .ok heap'

/-- The kernel after the supply block was allocated. -/
def withSupplyBlock (k : Kernel) (sp : Nat) (heap : Heap) : Kernel :=
  { k with pidGen := add64 k.pidGen 1, heap := ⟨heap, (sp, supplyBlockSize) :: k.heap.live⟩ }

/-- The outcomes of `init_process`. -/
inductive InitOutcome (args : ProcessArgs) (k : Kernel) (T : Tables) : Except Fault (Option Pcb × Kernel) → Prop
  | fault (e : Fault) :
      (args.priority.toNat ≠ uint16Max → T.Placed k.mem → T.pre k.sched.cr3 = 0 → ¬CanInit args k) →
        (args.priority.toNat = uint16Max → ¬CanRefuse args k) → InitOutcome args k T (.error e)
  /-- `create_thread` refuses the priority -/
  | refused {sp : Nat} {heap heap' : Heap} {k₁ k₂ k₃ : Kernel} : args.priority.toNat = uint16Max →
      imallocAlocator (k.heap.heap.limit + 1) k.heap.heap supplyBlockSize = .ok (some (sp, heap)) →
        heapFree heap sp = .ok heap' → Wasted args.allocationInfo.codePages (withSupplyBlock k sp heap) k₁ →
          Wasted args.allocationInfo.mappingPages k₁ k₂ → Wasted args.allocationInfo.stackPages k₂ k₃ →
            InitOutcome args k T (.ok (none, { k₃ with heap := ⟨heap', k.heap.live⟩ }))
  /-- a part of the memory is missing -/
  | failed {sp pcbAddr descriptorAddr root : Nat} {heap heap' : Heap} {p : TcbPtr} {supply : SupplyBlock} {T' : Tables}
      {t : Tcb} {k₂ k₃ : Kernel} : args.priority.toNat ≠ uint16Max →
      Spawned args.isPrivileged args.priority args.allocationInfo (withSupplyBlock k sp heap) T p root supply T' t k₂ →
        (T.Placed k.mem → T.pre k.sched.cr3 = 0 → ¬CanInit args k) → T'.Apart memMapSource k₃.mmap →
          k₃ = { k₂ with mmap := k₃.mmap, heap := k₃.heap } →
            k₃.heap = ⟨heap', (descriptorAddr, threadDescriptorSize) :: (pcbAddr, pcbSize) :: (p.heapAddr, tcbSize) ::
              k.heap.live⟩ → InitOutcome args k T (.ok (none, k₃))
  | made {sp pcbAddr descriptorAddr root code : Nat} {heap heap' : Heap} {p : TcbPtr} {supply : SupplyBlock} {T' : Tables}
      {t : Tcb} {k₂ : Kernel} {pcb : Pcb} : args.priority.toNat ≠ uint16Max →
      Spawned args.isPrivileged args.priority args.allocationInfo (withSupplyBlock k sp heap) T p root supply T' t k₂ →
        (T.Placed k.mem → T.pre k.sched.cr3 = 0 → CanInit args k) → supply.codeMemory = some code →
          pcb.processThreads.tcb = some p →
            HeapIntact ⟨heap', (descriptorAddr, threadDescriptorSize) :: (pcbAddr, pcbSize) :: (p.heapAddr, tcbSize) ::
              (sp, supplyBlockSize) :: k.heap.live⟩ →
              InitOutcome args k T (.ok (some pcb, { k₂ with
                mem := k₂.mem.copy code args.code 0 args.codeSize
                heap := ⟨heap', (descriptorAddr, threadDescriptorSize) :: (pcbAddr, pcbSize) :: (p.heapAddr, tcbSize) ::
                  (sp, supplyBlockSize) :: k.heap.live⟩ }))

/-- The end of `init_process`: the code is copied, or what there is of the memory is given back. -/
def initSupply (args : ProcessArgs) (pcb : Pcb) (sp : Nat) (supply : SupplyBlock) (k : Kernel) :
    Except Fault (Option Pcb × Kernel) :=
  match supply with
  | ⟨some codeMemory, some _, some _⟩ =>
    return (some pcb, { k with mem := k.mem.copy codeMemory args.code 0 args.codeSize })
  | ⟨codeMemory, mappingMemory, stackMemory⟩ => do
    let k ← ifree sp supplyBlockSize (ideallocSupply ⟨codeMemory, mappingMemory, stackMemory⟩ k)
    return (none, k)

/-- The rest of `init_process` once the thread was asked for. -/
def initRest (args : ProcessArgs) (pid sp : Nat) (thread : Option TcbPtr) (supply : SupplyBlock) (k : Kernel) :
    Except Fault (Option Pcb × Kernel) :=
  match thread with
  | none => do
    let k ← ifree sp supplyBlockSize k
    return (none, k)
  | some tcb => do
    let (pcbAddr, k) ← imalloc pcbSize k
    if pcbAddr = 0 then
      let k ← ifree sp supplyBlockSize k
      let k ← ifree tcb.heapAddr tcbSize k
      return (none, k)
    let (descriptorAddr, k) ← imalloc threadDescriptorSize k
    if descriptorAddr = 0 then
      let k ← ifree sp supplyBlockSize k
      let k ← ifree tcb.heapAddr tcbSize k
      let k ← ifree pcbAddr pcbSize k
      return (none, k)
    let pcb : Pcb := {
      parentPid := args.parentPid
      pid
      initPriority := args.priority.toNat
      processThreads := ⟨some tcb, none⟩ }
    initSupply args pcb sp supply k

section
variable {args : ProcessArgs} {k : Kernel} {T : Tables}

theorem initProcess_eq : initProcess args k = (do
    let (sp, k₁) ← imalloc supplyBlockSize { k with pidGen := add64 k.pidGen 1 }
    if sp = 0 then return (none, k₁)
    let (thread, supply, k₂) ←
      spawnAllocThread args.isPrivileged args.priority args.allocationInfo defaultPermissions k₁
    initRest args k.pidGen sp thread supply k₂) := by
  unfold initProcess
  refine bind_congr fun ⟨sp, k₁⟩ => ?_
  dsimp only
  split_ifs
  · rfl
  · refine bind_congr fun ⟨thread, supply, k₂⟩ => ?_
    cases thread <;> rfl

theorem initSupply_missing {pcb : Pcb} {sp : Nat} {supply : SupplyBlock} (h : ∃ sub, supply.part sub = none) :
    initSupply args pcb sp supply k = (do
      let k ← ifree sp supplyBlockSize (ideallocSupply supply k)
      return (none, k)) := by
  obtain ⟨code, mapping, stack⟩ := supply
  obtain ⟨sub, hsub⟩ := h
  rcases code with _ | code
  · rfl
  · rcases mapping with _ | mapping
    · rfl
    · rcases stack with _ | stack
      · rfl
      · cases sub <;> cases hsub

/-- The supply block leaves the blocks in use, the three above it stay. -/
theorem erase_supplyBlock {a b c sp : Nat} {live : List (Nat × Nat)} :
    ((a, threadDescriptorSize) :: (b, pcbSize) :: (c, tcbSize) :: (sp, supplyBlockSize) :: live).erase
      (sp, supplyBlockSize) = (a, threadDescriptorSize) :: (b, pcbSize) :: (c, tcbSize) :: live := by
  have hne : ∀ x n : Nat, n ≠ supplyBlockSize → ¬((x, n) == (sp, supplyBlockSize)) = true := fun x n hn he =>
    hn (congrArg Prod.snd (beq_iff_eq.1 he))
  rw [List.erase_cons_tail (hne _ _ (by decide)), List.erase_cons_tail (hne _ _ (by decide)),
    List.erase_cons_tail (hne _ _ (by decide)), List.erase_cons_head]

/-- A priority that is refused. -/
theorem initRest_refused {sp : Nat} {heap : Heap} (hok : memMapSource.Ok k.mmap)
    (hprio : args.priority.toNat = uint16Max)
    (hheap : imallocAlocator (k.heap.heap.limit + 1) k.heap.heap supplyBlockSize = .ok (some (sp, heap))) :
    InitOutcome args k T (spawnAllocThread args.isPrivileged args.priority args.allocationInfo defaultPermissions
      (withSupplyBlock k sp heap) >>= fun x => initRest args k.pidGen sp x.1 x.2.1 x.2.2) := by
  have hcreate : createThread args.isPrivileged args.priority (withSupplyBlock k sp heap) =
      .ok (none, withSupplyBlock k sp heap) := by
    unfold createThread
    rw [if_pos hprio]
    rfl
  unfold spawnAllocThread
  rw [hcreate]
  dsimp only [bind, Except.bind]
  cases hsupply : threadSupplyNewMem none args.allocationInfo defaultPermissions (withSupplyBlock k sp heap) with
  | error e =>
    refine .fault e (fun h => absurd hprio h) ?_
    rintro - ⟨hmany, -⟩
    rw [threadSupplyNewMem_refused hmany] at hsupply
    cases hsupply
  | ok r =>
    obtain ⟨r, supply, k₃⟩ := r
    have hok₀ : memMapSource.Ok (withSupplyBlock k sp heap).mmap := hok
    obtain ⟨k₁, k₂, h₁, h₂, h₃⟩ := threadSupplyNewMem_none hok₀ hsupply
    have hblock : k₃.heap = (withSupplyBlock k sp heap).heap := by rw [h₃.rest, h₂.rest, h₁.rest]
    dsimp only [pure, Except.pure]
    unfold initRest ifree
    dsimp only [bind, Except.bind]
    rw [hblock]
    cases hfree : heapFree (withSupplyBlock k sp heap).heap.heap sp with
    | error e =>
      refine .fault e (fun h => absurd hprio h) ?_
      rintro - ⟨-, sp', heap', heap'', hheap', hfree'⟩
      rw [hheap] at hheap'
      cases hheap'
      rw [show heapFree heap sp = .error e from hfree] at hfree'
      cases hfree'
    | ok heap' =>
      have hlive : (withSupplyBlock k sp heap).heap.live.erase (sp, supplyBlockSize) = k.heap.live :=
        List.erase_cons_head ..
      rw [hlive]
      exact .refused hprio hheap hfree h₁ h₂ h₃

/-- What the heap holds for a thread that was made. -/
theorem Spawned.live {sp root : Nat} {heap : Heap} {p : TcbPtr} {supply : SupplyBlock} {T' : Tables} {t : Tcb} {k₂ : Kernel}
    (h : Spawned args.isPrivileged args.priority args.allocationInfo (withSupplyBlock k sp heap) T p root supply T' t k₂) :
    k₂.heap.live = (p.heapAddr, tcbSize) :: (sp, supplyBlockSize) :: k.heap.live := by
  obtain ⟨heap₂, -, hk₂⟩ := h.block
  rw [hk₂]
  rfl

/-- A thread that was made, with a part of its supply missing: the rest of the supply is given back. -/
theorem initSupply_failed {sp root pcbAddr descriptorAddr : Nat} {heap heap₄ : Heap} {p : TcbPtr} {supply : SupplyBlock}
    {T' : Tables} {t : Tcb} {k₂ : Kernel} (pcb : Pcb) (hprio : args.priority.toNat ≠ uint16Max)
    (h : Spawned args.isPrivileged args.priority args.allocationInfo (withSupplyBlock k sp heap) T p root supply T' t k₂)
    (hwf : T.WF k.mem) (hs : T.Apart memMapSource k.mmap) (hcr3 : T.level k.sched.cr3 = 4)
    (hmissing : ∃ sub, supply.part sub = none)
    (hfailed : T.Placed k.mem → T.pre k.sched.cr3 = 0 → ¬CanInit args k) :
    InitOutcome args k T (initSupply args pcb sp supply { k₂ with
      heap := ⟨heap₄, (descriptorAddr, threadDescriptorSize) :: (pcbAddr, pcbSize) :: k₂.heap.live⟩ }) := by
  obtain ⟨k₁, hc, hsup⟩ := h.created
  obtain ⟨F, hlists, hdisjoint⟩ := hsup.lists
  obtain ⟨-, -, hwf₁, hs₁⟩ := hc.tables hwf hs hcr3
  obtain ⟨-, hs₂, -⟩ := hsup.run.sound hwf₁ hs₁ Tables.level_insert_self
  rw [initSupply_missing hmissing]
  generalize hk₄ : ({ k₂ with heap := _ } : Kernel) = k₄
  have hmem₄ : k₄.mem = k₂.mem := by rw [← hk₄]
  have hmmap₄ : k₄.mmap = k₂.mmap := by rw [← hk₄]
  obtain ⟨hgiven, hs₃⟩ := @ideallocSupply_spec T' k₄ (by rw [hmmap₄]; exact hs₂) supply args.allocationInfo.pages F
    (by rw [hmem₄, hmmap₄]; exact hlists) hdisjoint
  unfold ifree
  rw [hgiven]
  dsimp only [bind, Except.bind]
  cases hfree : heapFree k₄.heap.heap sp with
  | error e => exact .fault e (fun _ => hfailed) fun h0 => absurd h0 hprio
  | ok heap' =>
    dsimp only [pure, Except.pure]
    -- of the four blocks only that of the supply is given back
    have herased : k₄.heap.live.erase (sp, supplyBlockSize) =
        (descriptorAddr, threadDescriptorSize) :: (pcbAddr, pcbSize) :: (p.heapAddr, tcbSize) :: k.heap.live := by
      rw [← hk₄, h.live]
      exact erase_supplyBlock
    rw [herased]
    refine .failed hprio h hfailed hs₃ ?_ rfl
    rw [← hk₄]

/-- A thread that was made. -/
theorem initRest_spawned {sp root : Nat} {heap : Heap} {p : TcbPtr} {supply : SupplyBlock} {T' : Tables} {t : Tcb}
    {k₂ : Kernel} (hprio : args.priority.toNat ≠ uint16Max)
    (hheap : imallocAlocator (k.heap.heap.limit + 1) k.heap.heap supplyBlockSize = .ok (some (sp, heap)))
    (hintact : HeapIntact (withSupplyBlock k sp heap).heap)
    (h : Spawned args.isPrivileged args.priority args.allocationInfo (withSupplyBlock k sp heap) T p root supply T' t k₂)
    (hwf : T.WF k.mem) (hs : T.Apart memMapSource k.mmap) (hcr3 : T.level k.sched.cr3 = 4) :
    InitOutcome args k T (initRest args k.pidGen sp (some p) supply k₂) := by
  have hspawn : CanSpawn args.allocationInfo (withSupplyBlock k sp heap) ↔ CanSpawn args.allocationInfo k := Iff.rfl
  obtain ⟨heap₂, hblock, hk₂⟩ := h.block
  obtain ⟨hintact₂, -⟩ := hintact.alloc (by decide) hblock
  rw [← hk₂] at hintact₂
  have hserves : HeapServes [supplyBlockSize, tcbSize, pcbSize, threadDescriptorSize] k.heap.heap ↔
      HeapServes [pcbSize, threadDescriptorSize] k₂.heap.heap := by
    rw [heapServes_cons hheap, hk₂]
    exact heapServes_cons hblock
  unfold initRest
  cases hpcb : imalloc pcbSize k₂ with
  | error e => exact .fault e (fun _ _ _ hcan => imalloc_error hpcb _ (hserves.1 hcan.1)) fun h0 => absurd h0 hprio
  | ok r =>
    obtain ⟨pcbAddr, k₃⟩ := r
    obtain ⟨heap₃, hok₃, rfl⟩ := imalloc_eq_ok.1 hpcb
    obtain ⟨hintact₃, h16, -⟩ := hintact₂.alloc (by decide) hok₃
    dsimp only [bind, Except.bind]
    rw [if_neg (by omega)]
    cases hdescriptor : imalloc threadDescriptorSize { k₂ with heap := ⟨heap₃, (pcbAddr, pcbSize) :: k₂.heap.live⟩ } with
    | error e =>
      refine .fault e (fun _ _ _ hcan => ?_) fun h0 => absurd h0 hprio
      exact imalloc_error hdescriptor [] ((heapServes_cons hok₃).1 (hserves.1 hcan.1))
    | ok r =>
      obtain ⟨descriptorAddr, k₄⟩ := r
      obtain ⟨heap₄, hok₄, rfl⟩ := imalloc_eq_ok.1 hdescriptor
      obtain ⟨hintact₄, h16', -⟩ := hintact₃.alloc (by decide) hok₄
      dsimp only
      rw [if_neg (by omega)]
      have hrest : T.Placed k.mem → T.pre k.sched.cr3 = 0 → ((∀ sub, supply.part sub ≠ none) ↔ CanInit args k) := by
        intro hpl hpre
        have hfour : HeapServes [pcbSize, threadDescriptorSize] k₂.heap.heap :=
          (heapServes_cons hok₃).2 ((heapServes_cons hok₄).2 trivial)
        unfold CanInit
        rw [h.served hpl hpre, hspawn, hserves]
        exact (and_iff_right hfour).symm
      -- with all four blocks it is up to the three parts of the supply
      by_cases hall : ∀ sub, supply.part sub ≠ none
      · have hmade : T.Placed k.mem → T.pre k.sched.cr3 = 0 → CanInit args k := fun hpl hpre => (hrest hpl hpre).1 hall
        obtain ⟨code, mapping, stack, rfl⟩ := SupplyBlock.eq_some hall
        have hcode : (SupplyBlock.mk (some code) (some mapping) (some stack)).codeMemory = some code := rfl
        rw [h.live] at hintact₄ ⊢
        exact @InitOutcome.made args k T sp pcbAddr descriptorAddr root code heap heap₄ p _ T' t k₂ _ hprio h hmade hcode rfl
          hintact₄
      · have hfailed : T.Placed k.mem → T.pre k.sched.cr3 = 0 → ¬CanInit args k := fun hpl hpre hcan =>
          hall ((hrest hpl hpre).2 hcan)
        exact initSupply_failed _ hprio h hwf hs hcr3 (by simpa only [not_forall, not_not] using hall) hfailed

theorem initProcess_spec (hwf : T.WF k.mem) (hs : T.Apart memMapSource k.mmap) (hcr3 : T.level k.sched.cr3 = 4)
    (hclear : ∀ sub, Clear k.mem (subSpaceToAddr sub) 3 k.sched.cr3) (hheap : HeapIntact k.heap) :
    InitOutcome args k T (initProcess args k) := by
  rw [initProcess_eq]
  cases hsp : imalloc supplyBlockSize { k with pidGen := add64 k.pidGen 1 } with
  | error e =>
    refine .fault e (fun _ _ _ hcan => imalloc_error hsp _ hcan.1) ?_
    rintro - ⟨-, sp, heap, -, hok, -⟩
    exact imalloc_error hsp [] ⟨sp, heap, hok, trivial⟩
  | ok r =>
    obtain ⟨sp, k₁⟩ := r
    obtain ⟨heap, hok, rfl⟩ := imalloc_eq_ok.1 hsp
    obtain ⟨hheap₁, h16, -⟩ := hheap.alloc (by decide) hok
    dsimp only [bind, Except.bind]
    rw [if_neg (by omega)]
    change InitOutcome args k T (spawnAllocThread args.isPrivileged args.priority args.allocationInfo defaultPermissions
      (withSupplyBlock k sp heap) >>= fun x => initRest args k.pidGen sp x.1 x.2.1 x.2.2)
    by_cases hprio : args.priority.toNat = uint16Max
    · exact initRest_refused hs.ok hprio hok
    · rcases @spawnAllocThread_spec (withSupplyBlock k sp heap) args.isPrivileged args.priority args.allocationInfo
        defaultPermissions T hwf hs hcr3 hclear hheap₁ hprio
        [pcbSize, threadDescriptorSize] with ⟨p, root, supply, T', t, k₂, hspawn, hmade⟩ | ⟨⟨e, hspawn⟩, hno⟩
      · rw [hspawn]
        exact initRest_spawned hprio hok hheap₁ hmade hwf hs hcr3
      · rw [hspawn]
        refine .fault e (fun _ hpl hpre hcan => hno hpl hpre ⟨?_, hcan.2⟩) fun h0 => absurd h0 hprio
        exact (heapServes_cons hok).1 hcan.1

end

/-! ## A kernel without a process -/

/-- A map of one region of sixty free frames at 1 MiB. -/
def sixtyFrames : MemMap :=
  { memSize := 0x13C000
    regions := [⟨0x100000, 0x3C000, 0, 1, 60⟩]
    bitmap := ⟨64, fun i => if i < 7 then 0 else if i = 7 then 0xF0#8 else 0xFF#8⟩ }

theorem sixtyFrames_wf : WF sixtyFrames := by
  refine wf_single rfl ⟨by decide, by decide, by decide, by decide, by decide⟩ ⟨rfl, by decide, rfl⟩ ?_
    (by decide +kernel)
  intro j h1 h2
  have h1 : 60 ≤ j := h1
  have h2 : j < 64 := h2
  interval_cases j <;> rfl

/-- The free blocks of a heap that was cut before: enough for two processes. -/
def cutBlocks : List (Nat × Nat) :=
  [(0x10010, 48), (0x10040, 288), (0x10160, 48), (0x10190, 32), (0x101B0, 48), (0x101E0, 288), (0x10300, 48),
    (0x10330, 32), (0x10350, 0x1000)]

/-- A heap of these blocks. -/
def cutHeap : Heap where
  mem a := match cutBlocks.find? fun b => b.1 ≤ a ∧ a < b.1 + 8 with
    | some b => (BitVec.ofNat 64 b.2).extractLsb' (8 * (a - b.1)) 8
    | none => 0
  heapStart := 0x10010
  heapSize := 0x2000
  limit := 0x12000

theorem cutHeap_intact : HeapIntact ⟨cutHeap, []⟩ := by
  have hsizes : ∀ b ∈ cutBlocks, blockSize cutHeap.mem b.1 = b.2 := by decide +kernel
  refine ⟨0x10010, 0x11350, cutBlocks.map Prod.fst, ?_, ?_, ?_, .nil, rfl, .inr ?_, by decide⟩
  · have htiled : Tiled (fun a => ((cutBlocks.find? fun b => b.1 = a).map Prod.snd).getD 0) 0x10010
        (cutBlocks.map Prod.fst) 0x11350 := by
      simp [Tiled, cutBlocks]
    refine htiled.congr fun b hb => ?_
    obtain ⟨c, hc, rfl⟩ := List.mem_map.1 hb
    rw [hsizes c hc]
    revert c
    decide
  · intro b hb
    obtain ⟨c, hc, rfl⟩ := List.mem_map.1 hb
    rw [hsizes c hc]
    revert c
    decide
  · intro b hb
    cases hb
  · decide +kernel

/-- The root table of the kernel at 0x1000, empty, and nothing else. -/
def rootOnly : Tables where
  level f := if f = 0x1000 then 4 else 0
  pre _ := 0

/-- A kernel that has made no process yet. -/
def newKernel : Kernel where
  mem _ := 0
  mmap := sixtyFrames
  heap := ⟨cutHeap, []⟩
  sched := { idle with cr3 := 0x1000 }
  tidGen := 1
  pidGen := 1

theorem rootOnly_wf : rootOnly.WF newKernel.mem :=
  Tables.only_wf (by decide) fun _ _ => entryAt_zero ..

theorem newKernel_apart : rootOnly.Apart memMapSource newKernel.mmap := by
  have hlow : sixtyFrames.Low := by
    intro r hr
    rw [List.mem_singleton.1 hr]
    decide
  refine Tables.only_apart ⟨sixtyFrames_wf, hlow⟩ ?_
  rintro ⟨r, hr, k, -, haddr, -⟩
  rw [List.mem_singleton.1 hr] at haddr
  dsimp only at haddr
  omega

/-- A user thread of priority 10 with that many pages of code, of mappings and of stack. -/
def processArgs (code mapping stack : Nat) : ProcessArgs where
  parentPid := 0
  isPrivileged := false
  priority := 10
  code := fun _ => 0x90
  codeSize := 16
  allocationInfo := ⟨code, 4096, mapping, 4096, stack, 4096⟩

theorem newKernel_clear (sub : AddrSubSpace) : Clear newKernel.mem (subSpaceToAddr sub) 3 newKernel.sched.cr3 :=
  clear_zeroed fun _ _ => entryAt_zero ..

end Icarus.Processes
