/-
The code of a new process: `init_process` copies it through the direct map, from the first frame of the list on, while
the thread sees the frames of the list in the order in which they came. The two agree where these frames follow each other.
-/
import Icarus.Memory.FrameOrder
import Icarus.Memory.PageLoops
import Icarus.Processes.Isolation
import Icarus.Processes.Permissions

namespace Icarus.Processes

open Icarus.Base Icarus.Memory

/-! ## What a process is promised -/

/-- The frames of the code pages, as the thread sees them. -/
def codeFrames (args : ProcessArgs) (m : Mem) (root : Nat) : Set Nat :=
  {f | ∃ j < args.allocationInfo.codePages, translate m root (pageVirtAddr .code j) = some f}

/-- Under the root the code is read from its start on, and from `m` to `m'` nothing has changed but its pages. -/
structure CodeLoaded (args : ProcessArgs) (root : Nat) (m m' : Mem) : Prop where
  reads : ∀ i < args.codeSize, ∃ pa, translateByte m' root (threadCodeVirtAddr + i) = some pa ∧ m' pa = args.code i
  spares : ∀ a, a / 4096 * 4096 ∉ codeFrames args m root → m' a = m a

/-- A process that is made has its code loaded; the same call without any code to copy leaves the memory as it is before
the copy. -/
def LoadsCode (args : ProcessArgs) (k : Kernel) : Prop :=
  ∀ pcb k', createProcess args k = .ok (some pcb, k') → ∃ p k₀, pcb.processThreads.tcb = some p ∧
    createProcess { args with codeSize := 0 } k = .ok (some pcb, k₀) ∧
      CodeLoaded args (k'.sched.tcbs p).pageTable k₀.mem k'.mem

/-- Behind the lowest free frame, which a root table takes, the next one starts a row of free frames that is long enough
for the code. -/
def CodeInRow (codeSize : Nat) (mmap : MemMap) : Prop :=
  ∃ root first, IsLeast mmap.free root ∧ IsLeast (mmap.free \ {root}) first ∧
    ∀ j, 4096 * j < codeSize → first + 4096 * j ∈ mmap.free

/-! ## Up to the copy -/

/-- The thread `p` is made and supplied from `k` on, its first frame of code is `code`. -/
structure Supplying (args : ProcessArgs) (k : Kernel) (p : TcbPtr) (code : Nat) (k' : Kernel) : Prop where
  thread : ∃ k₁ k₂ supply, k₁.mem = k.mem ∧ k₁.mmap = k.mmap ∧ k₁.sched = k.sched ∧
    createThread args.isPrivileged args.priority k₁ = .ok (some p, k₂) ∧
      threadSupplyNewMem (some p) args.allocationInfo defaultPermissions k₂ = .ok (0, supply, k') ∧
        supply.codeMemory = some code ∧ ∀ sub, supply.part sub ≠ none

/-- A process with the thread `p` is made, whatever the code, in `k₀` but for the copy to the frames from `code` on. -/
structure Prepared (args : ProcessArgs) (k : Kernel) (pcb : Pcb) (p : TcbPtr) (code : Nat) (k₀ : Kernel) : Prop where
  tcb : pcb.processThreads.tcb = some p
  created : ∀ (bytes : Mem) (size : Nat), createProcess { args with code := bytes, codeSize := size } k =
    .ok (some pcb, { k₀ with mem := k₀.mem.copy code bytes 0 size })
  supplied : ∃ k', Supplying args k p code k' ∧ k₀.mem = k'.mem ∧
    (k₀.sched.tcbs p).pageTable = (k'.sched.tcbs p).pageTable

section
variable {args : ProcessArgs} {k k' : Kernel} {pcb : Pcb} {p : TcbPtr} {code : Nat}

theorem copy_zero (m : Mem) (d : Nat) (src : Mem) (s : Nat) : m.copy d src s 0 = m := by
  funext a
  exact Mem.copy_of_lt (by omega)

/-- A thread that is spawned with all parts of its memory. -/
theorem spawnAllocThread_eq_ok {supply : SupplyBlock} {info : AllocationInfo} {perms : PermissionInfo}
    {isPrivileged : Bool} {priority : BitVec 16} (hall : ∀ sub, supply.part sub ≠ none)
    (h : spawnAllocThread isPrivileged priority info perms k = .ok (some p, supply, k')) :
    ∃ k₁, createThread isPrivileged priority k = .ok (some p, k₁) ∧
      threadSupplyNewMem (some p) info perms k₁ = .ok (0, supply, k') := by
  obtain ⟨⟨tcb, k₁⟩, hcreate, h⟩ := bind_eq_ok.1 h
  obtain ⟨⟨r, supply', k₂⟩, hsupply, h⟩ := bind_eq_ok.1 h
  cases h
  refine ⟨k₁, hcreate, ?_⟩
  obtain ⟨⟨r₁, k₃⟩, -, hparts⟩ := bind_eq_ok.1 hsupply
  obtain ⟨⟨r₂, k₄⟩, -, hparts⟩ := bind_eq_ok.1 hparts
  obtain ⟨⟨r₃, k₅⟩, -, hparts⟩ := bind_eq_ok.1 hparts
  cases hparts
  have hzero : ¬(r₁ = none ∨ r₂ = none ∨ r₃ = none) := by
    rw [not_or, not_or]
    exact ⟨hall .code, hall .mapping, hall .stack⟩
  rw [if_neg hzero] at hsupply
  exact hsupply

/-- The end of `init_process` makes the process when there is memory of all three kinds. -/
theorem initSupply_eq_some {pcb' : Pcb} {sp : Nat} {supply : SupplyBlock} :
    initSupply args pcb sp supply k = .ok (some pcb', k') ↔ pcb' = pcb ∧ ∃ code mapping stack,
      supply = ⟨some code, some mapping, some stack⟩ ∧
        k' = { k with mem := k.mem.copy code args.code 0 args.codeSize } := by
  constructor
  · intro h
    by_cases hall : ∀ sub, supply.part sub ≠ none
    · obtain ⟨code, mapping, stack, rfl⟩ := SupplyBlock.eq_some hall
      cases h
      exact ⟨rfl, code, mapping, stack, rfl, rfl⟩
    · rw [initSupply_missing (by simpa only [not_forall, not_not] using hall)] at h
      obtain ⟨k₁, -, h⟩ := bind_eq_ok.1 h
      cases h
  · rintro ⟨rfl, code, mapping, stack, rfl, rfl⟩
    rfl

/-- The control block of the new process. -/
def newPcb (args : ProcessArgs) (pid : Nat) (p : TcbPtr) : Pcb where
  parentPid := args.parentPid
  pid
  initPriority := args.priority.toNat
  processThreads := ⟨some p, none⟩

/-- With a thread it is up to the last two blocks of the heap. -/
theorem initRest_eq_some {pid sp : Nat} {thread : Option TcbPtr} {supply : SupplyBlock} :
    initRest args pid sp thread supply k = .ok (some pcb, k') ↔ ∃ p pcbAddr descriptorAddr k₁ k₂, thread = some p ∧
      imalloc pcbSize k = .ok (pcbAddr, k₁) ∧ pcbAddr ≠ 0 ∧
        imalloc threadDescriptorSize k₁ = .ok (descriptorAddr, k₂) ∧ descriptorAddr ≠ 0 ∧
          initSupply args (newPcb args pid p) sp supply k₂ = .ok (some pcb, k') := by
  constructor
  · intro h
    cases thread with
    | none =>
      obtain ⟨k₁, -, h⟩ := bind_eq_ok.1 h
      cases h
    | some p =>
      obtain ⟨⟨pcbAddr, k₁⟩, hpcb, h⟩ := bind_eq_ok.1 h
      dsimp only at h
      split_ifs at h with hnull
      · obtain ⟨k₂, -, h⟩ := bind_eq_ok.1 h
        obtain ⟨k₃, -, h⟩ := bind_eq_ok.1 h
        cases h
      obtain ⟨⟨descriptorAddr, k₂⟩, hdescriptor, h⟩ := bind_eq_ok.1 h
      dsimp only at h
      split_ifs at h with hnull'
      · obtain ⟨k₃, -, h⟩ := bind_eq_ok.1 h
        obtain ⟨k₄, -, h⟩ := bind_eq_ok.1 h
        obtain ⟨k₅, -, h⟩ := bind_eq_ok.1 h
        cases h
      exact ⟨p, pcbAddr, descriptorAddr, k₁, k₂, rfl, hpcb, hnull, hdescriptor, hnull', h⟩
  · rintro ⟨p, pcbAddr, descriptorAddr, k₁, k₂, rfl, hpcb, hnull, hdescriptor, hnull', h⟩
    refine bind_eq_ok.2 ⟨_, hpcb, ?_⟩
    dsimp only
    rw [if_neg hnull]
    refine bind_eq_ok.2 ⟨_, hdescriptor, ?_⟩
    dsimp only
    rw [if_neg hnull']
    exact h

/-- Up to there it is up to the block of the supply and the thread. -/
theorem initProcess_eq_some : initProcess args k = .ok (some pcb, k') ↔ ∃ sp thread supply k₁ k₂,
    imalloc supplyBlockSize { k with pidGen := add64 k.pidGen 1 } = .ok (sp, k₁) ∧ sp ≠ 0 ∧
      spawnAllocThread args.isPrivileged args.priority args.allocationInfo defaultPermissions k₁ =
        .ok (thread, supply, k₂) ∧ initRest args k.pidGen sp thread supply k₂ = .ok (some pcb, k') := by
  rw [initProcess_eq]
  constructor
  · intro h
    obtain ⟨⟨sp, k₁⟩, hsp, h⟩ := bind_eq_ok.1 h
    dsimp only at h
    split_ifs at h with hnull
    · cases h
    obtain ⟨⟨thread, supply, k₂⟩, hspawn, h⟩ := bind_eq_ok.1 h
    exact ⟨sp, thread, supply, k₁, k₂, hsp, hnull, hspawn, h⟩
  · rintro ⟨sp, thread, supply, k₁, k₂, hsp, hnull, hspawn, h⟩
    refine bind_eq_ok.2 ⟨_, hsp, ?_⟩
    dsimp only
    rw [if_neg hnull]
    exact bind_eq_ok.2 ⟨_, hspawn, h⟩

/-- Nothing up to the copy looks at the code. -/
theorem createProcess_prepared (h : createProcess args k = .ok (some pcb, k')) :
    ∃ p code k₀, Prepared args k pcb p code k₀ := by
  obtain ⟨⟨pcb', k₁⟩, hinit, h⟩ := bind_eq_ok.1 h
  cases pcb' with
  | none => cases h
  | some pcb' =>
    obtain ⟨sp, thread, supply, k₂, k₃, hsp, hnull, hspawn, hrest⟩ := initProcess_eq_some.1 hinit
    obtain ⟨p, pcbAddr, descriptorAddr, k₄, k₅, rfl, hpcb, hnull', hdescriptor, hnull'', hlast⟩ := initRest_eq_some.1 hrest
    obtain ⟨rfl, code, mapping, stack, rfl, rfl⟩ := initSupply_eq_some.1 hlast
    have hall : ∀ sub, (SupplyBlock.mk (some code) (some mapping) (some stack)).part sub ≠ none := by
      intro sub
      cases sub <;> exact Option.some_ne_none _
    obtain ⟨k₆, hcreate, hsupply⟩ := spawnAllocThread_eq_ok hall hspawn
    obtain ⟨sched, hadd, h⟩ := bind_eq_ok.1 h
    cases h
    obtain ⟨heap₂, -, hk₂⟩ := imalloc_eq_ok.1 hsp
    obtain ⟨heap₄, -, hk₄⟩ := imalloc_eq_ok.1 hpcb
    obtain ⟨heap₅, -, hk₅⟩ := imalloc_eq_ok.1 hdescriptor
    refine ⟨p, code, { k₅ with sched }, rfl, fun bytes size => ?_, k₃,
      ⟨k₂, k₆, _, by rw [hk₂], by rw [hk₂], by rw [hk₂], hcreate, hsupply, rfl, hall⟩, by rw [hk₅, hk₄], ?_⟩
    · have hinit' : initProcess { args with code := bytes, codeSize := size } k =
          .ok (some (newPcb args k.pidGen p), { k₅ with mem := k₅.mem.copy code bytes 0 size }) :=
        initProcess_eq_some.2 ⟨sp, _, _, k₂, k₃, hsp, hnull, hspawn, initRest_eq_some.2
          ⟨p, pcbAddr, descriptorAddr, k₄, k₅, rfl, hpcb, hnull', hdescriptor, hnull'',
            initSupply_eq_some.2 ⟨rfl, code, mapping, stack, rfl, rfl⟩⟩⟩
      exact bind_eq_ok.2 ⟨_, hinit', bind_eq_ok.2 ⟨sched, hadd, rfl⟩⟩
    · rw [hk₅, hk₄] at hadd
      exact ((schedulerAddThread_roots hadd).pageTable p).trans
        (((SameRoots.refl k₃.sched).setState p .ready).pageTable p)

end

/-! ## The pages of the code -/

/-- Without larger pages an address has a clear way. -/
theorem clear_of_noLarger {T : Tables} {m : Mem} {va : Nat} (hwf : T.WF m) (hblank : T.Blank m) :
    ∀ (l f : Nat), T.level f = l + 1 → NoLarger 0 m (l + 1) f va → Clear m va l f
  | 0, _, _, _ => trivial
  | l + 1, f, hf, h => by
    have hends := NoLarger.ends_not h hblank (Nat.succ_pos l) (by omega)
    refine ⟨hends, fun hp => ?_⟩
    exact clear_of_noLarger hwf hblank l _ (hwf.child_frame hf (vaIndex_lt ..) hp hends).1 (h.child (Nat.succ_pos l) hp)

/-- The pages of the code show, in their order, the frames that the map gives out behind the one for the root, the first
of which is `code`; none of them is a table. -/
structure CodeShown (pages : Nat) (mmap : MemMap) (code root : Nat) (m₀ : Mem) (map : PageMap) (T : Tables) (m : Mem)
    (mmap' : MemMap) : Prop where
  calls : PageCalls memMapSource root m₀ map T m mmap'
  mapped : ∀ j < pages, ∃ c, map (pageOf (pageVirtAddr .code j)) = some c ∧ c.physAddr = memMapSource.nth (j + 1) mmap
  apart : ∀ j < pages, T.level (memMapSource.nth (j + 1) mmap) = 0
  served : memMapSource.Serves (frameCount pages + 1) mmap
  first : code = memMapSource.nth 1 mmap

section
variable {args : ProcessArgs} {k k' : Kernel} {p : TcbPtr} {code : Nat} {T : Tables}

theorem Supplying.codeShown (h : Supplying args k p code k') (hT : Built memMapSource k.sched.cr3 T k.mem k.mmap)
    (hlarge : ∀ va, InLowerHalf va → NoLarger 0 k.mem 4 k.sched.cr3 va) :
    ∃ m₀ map T', CodeShown args.allocationInfo.codePages k.mmap code (k'.sched.tcbs p).pageTable m₀ map T' k'.mem
      k'.mmap := by
  obtain ⟨k₁, k₂, supply, hmem, hmmap, hsched, hcreate, hsupply, hcode, hall⟩ := h.thread
  rw [← hmem, ← hmmap, ← hsched] at hT
  rw [← hmem, ← hsched] at hlarge
  rw [← hmmap]
  obtain ⟨addr, root, hc⟩ := created_of_some hT.apart.ok hcreate
  have htcb : k₂.sched.tcbs p = newTcb k₁.tidGen args.isPrivileged args.priority root := by
    rw [hc.sched, Sched.tcbs_modify_self]
  have hbuilt := hc.built hT
  have hlarge₂ := hc.noLarger hT hlarge
  have hclear : ∀ sub, Clear k₂.mem (subSpaceToAddr sub) 3 root := fun sub =>
    clear_of_noLarger hbuilt.wf hbuilt.blank 3 root hbuilt.root
      (hlarge₂ _ (inLowerHalf_pageVirtAddr (i := 0) (by cases sub <;> decide)))
  -- the lists: there were frames for all of them, and those of the code are held
  rcases @threadSupplyNewMem_spec args.allocationInfo defaultPermissions p root k₂ _ hbuilt.wf hbuilt.apart hbuilt.root
    (by rw [htcb]; rfl) (fun sub => by rw [htcb]; rfl) hclear with
    ⟨r, supply', m', mmap', T₁, t', hsupply', hsup⟩ | ⟨⟨e, hsupply'⟩, -⟩
  rotate_left
  · rw [hsupply] at hsupply'
    cases hsupply'
  have hsupplied := hsupply
  rw [hsupply] at hsupply'
  cases hsupply'
  obtain ⟨hfew, hserves⟩ := (hsup.served hbuilt.placed hbuilt.rootPre).1 hall
  have hlist := ((memMapSource.serves_add _ _ _).1 ((memMapSource.serves_add _ _ _).1 hserves).1).1
  obtain ⟨hfirst, hheld⟩ := hsup.code code hcode
  obtain ⟨hwf₁, -, -⟩ := hsup.run.sound hbuilt.wf hbuilt.apart hbuilt.root
  have hroot₁ := hsup.run.level_root hbuilt.wf hbuilt.apart hbuilt.root
  -- and the pages, in the order of the list
  have hroom : ∀ sub, pageVirtAddr sub (0 + args.allocationInfo.pages sub) < subSpaceEnd sub := fun sub => by
    have hpages := hfew sub
    unfold pageVirtAddr
    cases sub <;> simp only [subSpaceToAddr, subSpaceEnd, threadCodeVirtAddr, threadMappingsVirtAddr,
      threadStackVirtAddr] <;> omega
  obtain ⟨added, map, T', hlen, -, hframes, hinv⟩ := (hc.supplyInv hT).newMem hlarge₂ hroom hsupplied
  have hnext : ∀ j, memMapSource.nth (j + 1) k₁.mmap = memMapSource.nth j k₂.mmap := FrameSource.nth_succ hc.alloc
  have htable : ((k₂.sched.modify p fun _ => t').tcbs p).pageTable = root := by
    rw [Sched.tcbs_modify_self, hsup.tcb, htcb]
    rfl
  rw [htable]
  refine ⟨_, map, _, hinv.calls.under, fun j hj => ?_, fun j hj => ?_, ⟨?_, ?_⟩, hfirst.trans (hnext 0).symm⟩
  · obtain ⟨page, hget⟩ : ∃ page, (added .code)[j]? = some page :=
      ⟨_, List.getElem?_eq_getElem (by rw [hlen]; exact hj)⟩
    refine ⟨_, hinv.logged .code j _ hget, ?_⟩
    rw [hnext]
    exact hframes j _ hget
  · by_contra hlevel
    refine (Tables.under_level hlevel).1.level_ne hwf₁ hroot₁ (hheld.held _ ⟨j, ?_, hnext j⟩).1
    exact lt_of_lt_of_le hj (Nat.le_max_right ..)
  · rw [hc.alloc]
    exact hc.given
  · rw [hc.alloc]
    exact hlist

end

section
variable {pages n code root j : Nat} {mmap mmap' : MemMap} {m₀ m m' : Mem} {map : PageMap} {T : Tables}

theorem CodeShown.mem_free (h : CodeShown pages mmap code root m₀ map T m mmap') (hok : memMapSource.Ok mmap)
    (hj : j < frameCount pages) : memMapSource.nth (j + 1) mmap ∈ mmap.free :=
  (h.served.taken_free hok ⟨j + 1, by omega, rfl⟩).1

/-- As long as no table is written the thread sees the frames of its list. -/
theorem CodeShown.translate (h : CodeShown pages mmap code root m₀ map T m mmap') (hok : memMapSource.Ok mmap)
    (hm : ∀ a, T.level (a / 4096 * 4096) ≠ 0 → m' a = m a) (hj : j < pages) :
    Memory.translate m' root (pageVirtAddr .code j) = some (memMapSource.nth (j + 1) mmap) := by
  have hfree := h.mem_free hok (lt_of_lt_of_le hj (Nat.le_max_right 1 pages))
  obtain ⟨c, hc, hframe⟩ := h.mapped j hj
  rw [← hframe] at hfree ⊢
  exact (h.calls.write h.calls.built.apart hm).translate_mapped hc (memMapSource.aligned _ _ hok hfree)
    (memMapSource.low _ _ hok hfree)

theorem CodeShown.translateByte (h : CodeShown pages mmap code root m₀ map T m mmap') (hok : memMapSource.Ok mmap)
    (hm : ∀ a, T.level (a / 4096 * 4096) ≠ 0 → m' a = m a) {i : Nat} (hi : i < 4096 * pages) :
    Memory.translateByte m' root (threadCodeVirtAddr + i) =
      some (memMapSource.nth (i / 4096 + 1) mmap + i % 4096) := by
  have hpage : pageOf (threadCodeVirtAddr + i) = pageOf (pageVirtAddr .code (i / 4096)) := by
    unfold pageOf vaPrefix pageVirtAddr
    dsimp only [subSpaceToAddr, threadCodeVirtAddr]
    omega
  have htranslate := h.translate hok hm (show i / 4096 < pages by omega)
  rw [← translate_of_page hpage] at htranslate
  rw [translateByte_of_translate htranslate]
  unfold threadCodeVirtAddr
  congr 2
  omega

theorem CodeShown.mem_codeFrames {args : ProcessArgs} (h : CodeShown args.allocationInfo.codePages mmap code root m₀ map T m mmap')
    (hok : memMapSource.Ok mmap) {f : Nat} :
    f ∈ codeFrames args m root ↔ ∃ j < args.allocationInfo.codePages, f = memMapSource.nth (j + 1) mmap := by
  constructor
  · rintro ⟨j, hj, hf⟩
    rw [h.translate hok (fun _ _ => rfl) hj] at hf
    exact ⟨j, hj, (Option.some.inj hf).symm⟩
  · rintro ⟨j, hj, rfl⟩
    exact ⟨j, hj, h.translate hok (fun _ _ => rfl) hj⟩

/-- A copy into pages of the code writes no table. -/
theorem CodeShown.copy_kept (h : CodeShown pages mmap code root m₀ map T m mmap') {bytes : Mem}
    (hin : ∀ i < n, ∃ j < pages, (code + i) / 4096 * 4096 = memMapSource.nth (j + 1) mmap) :
    ∀ a, T.level (a / 4096 * 4096) ≠ 0 → m.copy code bytes 0 n a = m a := by
  intro a ha
  refine Mem.copy_of_lt ?_
  by_contra hno
  obtain ⟨j, hj, hframe⟩ := hin (a - code) (by omega)
  rw [show code + (a - code) = a by omega] at hframe
  rw [hframe] at ha
  exact ha (h.apart j hj)

theorem byte_succ_ne (b : BitVec 8) : b + 1 ≠ b := by
  bv_omega

section
variable {args : ProcessArgs} (h : CodeShown args.allocationInfo.codePages mmap code root m₀ map T m mmap')
  (hok : memMapSource.Ok mmap)

include h hok

/-- Code that differs everywhere from what is there shows that only pages of the code are written. -/
theorem CodeShown.inside_of_loads
    (hall : ∀ bytes : Mem, CodeLoaded { args with code := bytes } root m (m.copy code bytes 0 args.codeSize)) :
    ∀ i < args.codeSize, ∃ j < args.allocationInfo.codePages,
      (code + i) / 4096 * 4096 = memMapSource.nth (j + 1) mmap := by
  intro i hi
  by_contra hno
  have hsame := (hall fun x => m (code + x) + 1).spares (code + i) fun hmem => hno ((h.mem_codeFrames hok).1 hmem)
  rw [Mem.copy_add hi, Nat.zero_add] at hsame
  exact byte_succ_ne _ hsame

/-- Code in which the first byte of a page occurs nowhere else shows where that page is. -/
theorem CodeShown.row_of_loads (hsize : args.codeSize ≤ 4096 * args.allocationInfo.codePages)
    (hall : ∀ bytes : Mem, CodeLoaded { args with code := bytes } root m (m.copy code bytes 0 args.codeSize)) :
    ∀ j, 4096 * j < args.codeSize → memMapSource.nth (j + 1) mmap = code + 4096 * j := by
  intro j hj
  obtain ⟨pa, hpa, hread⟩ := (hall fun x => if x = 4096 * j then m (memMapSource.nth (j + 1) mmap) + 1 else
    m (memMapSource.nth (j + 1) mmap)).reads (4096 * j) hj
  rw [h.translateByte hok (h.copy_kept (h.inside_of_loads hok hall)) (by omega), Nat.mul_div_cancel_left j (by decide),
    Nat.mul_mod_right, Nat.add_zero] at hpa
  cases hpa
  dsimp only at hread
  rw [if_pos rfl] at hread
  by_cases hout : memMapSource.nth (j + 1) mmap < code ∨ code + args.codeSize ≤ memMapSource.nth (j + 1) mmap
  · rw [Mem.copy_of_lt hout] at hread
    exact absurd hread.symm (byte_succ_ne _)
  · obtain ⟨x, hx, hframe⟩ : ∃ x < args.codeSize, memMapSource.nth (j + 1) mmap = code + x :=
      ⟨memMapSource.nth (j + 1) mmap - code, by omega, by omega⟩
    rw [hframe, Mem.copy_add hx, Nat.zero_add] at hread
    split_ifs at hread with hpage
    · rw [hframe, hpage]
    · exact absurd hread.symm (byte_succ_ne _)

/-- Where the frames of the pages follow each other the copy goes straight through them. -/
theorem CodeShown.loads_of_row (hsize : args.codeSize ≤ 4096 * args.allocationInfo.codePages)
    (hrow : ∀ j, 4096 * j < args.codeSize → memMapSource.nth (j + 1) mmap = code + 4096 * j) (bytes : Mem) :
    CodeLoaded { args with code := bytes } root m (m.copy code bytes 0 args.codeSize) := by
  have hcode : code % 4096 = 0 := by
    rw [h.first]
    exact memMapSource.aligned _ _ hok (h.mem_free hok (Nat.le_max_left 1 _))
  have hin : ∀ i < args.codeSize, ∃ j < args.allocationInfo.codePages,
      (code + i) / 4096 * 4096 = memMapSource.nth (j + 1) mmap := by
    intro i hi
    refine ⟨i / 4096, by omega, ?_⟩
    rw [hrow _ (by omega)]
    omega
  refine ⟨fun i (hi : i < args.codeSize) => ⟨code + i, ?_, ?_⟩, fun a ha => Mem.copy_of_lt ?_⟩
  · rw [h.translateByte hok (h.copy_kept hin) (lt_of_lt_of_le hi hsize), hrow _ (by omega)]
    congr 1
    omega
  · rw [Mem.copy_add hi, Nat.zero_add]
  · by_contra hno
    obtain ⟨j, hj, hframe⟩ := hin (a - code) (by omega)
    rw [show code + (a - code) = a by omega] at hframe
    exact ha ((h.mem_codeFrames hok).2 ⟨j, hj, hframe⟩)

/-- The code is loaded, whatever it is, exactly where the frames of its pages follow each other. -/
theorem CodeShown.loaded_iff (hsize : args.codeSize ≤ 4096 * args.allocationInfo.codePages) :
    (∀ bytes : Mem, CodeLoaded { args with code := bytes } root m (m.copy code bytes 0 args.codeSize)) ↔
      ∀ j, 4096 * j < args.codeSize → memMapSource.nth (j + 1) mmap = code + 4096 * j :=
  ⟨h.row_of_loads hok hsize, h.loads_of_row hok hsize⟩

end

/-- The frames of the code follow each other exactly where there is a row of free frames for them. -/
theorem CodeShown.inRow_iff (h : CodeShown pages mmap code root m₀ map T m mmap') (hok : memMapSource.Ok mmap)
    (hn : n ≤ 4096 * pages) :
    CodeInRow n mmap ↔ ∀ j, 4096 * j < n → memMapSource.nth (j + 1) mmap = code + 4096 * j := by
  obtain ⟨hgiven, hserves⟩ := h.served
  have hnext : ∀ j, memMapSource.nth (j + 1) mmap = memMapSource.nth j (memMapSource.alloc mmap).2 :=
    FrameSource.nth_succ (Prod.ext rfl rfl)
  have hok' := memMapSource.ok mmap hok
  obtain ⟨-, hroot, hleft⟩ := (memMapSource_alloc hok).resolve_left fun hf => hgiven hf.1
  have hcount : 0 < frameCount pages := Nat.le_max_left 1 pages
  obtain ⟨-, hfirst, -⟩ := (memMapSource_alloc hok').resolve_left fun hf => by
    obtain ⟨m, hm⟩ := Nat.exists_eq_succ_of_ne_zero hcount.ne'
    rw [hm] at hserves
    exact hserves.1 hf.1
  have hcode : (memMapSource.alloc (memMapSource.alloc mmap).2).1 = code := by
    rw [h.first, hnext]
    rfl
  rw [hcode] at hfirst
  have hrow := @nth_consecutive_iff (memMapSource.alloc mmap).2 code ((n + 4095) / 4096) (frameCount pages) hok' hserves
    (by unfold frameCount; omega) hfirst
  rw [hleft] at hfirst hrow
  constructor
  · rintro ⟨root', first, hroot', hfirst', hfree⟩ j hj
    obtain rfl := hroot'.unique hroot
    obtain rfl := hfirst'.unique hfirst
    rw [hnext]
    refine hrow.2 (fun i hi => ⟨hfree i (by omega), fun heq => ?_⟩) j (by omega)
    -- the root lies before the row
    have hle := hroot.2 hfirst.1.1
    have hne : first ≠ (memMapSource.alloc mmap).1 := hfirst.1.2
    have heq : first + 4096 * i = (memMapSource.alloc mmap).1 := heq
    omega
  · intro hall
    refine ⟨_, code, hroot, hfirst, fun j hj => (hrow.1 (fun i hi => ?_) j (by omega)).1⟩
    rw [← hnext]
    exact hall i (by omega)

end

/-! ## The copy -/

section
variable {args : ProcessArgs} {k k₀ k' : Kernel} {pcb : Pcb} {p : TcbPtr} {code : Nat} {T : Tables}

/-- Whether the code is loaded is a matter of the copy. -/
theorem Prepared.loadsCode_iff (h : Prepared args k pcb p code k₀) (bytes : Mem) :
    LoadsCode { args with code := bytes } k ↔ CodeLoaded { args with code := bytes } (k₀.sched.tcbs p).pageTable k₀.mem
      (k₀.mem.copy code bytes 0 args.codeSize) := by
  have hcall := h.created bytes args.codeSize
  have hempty := h.created bytes 0
  rw [copy_zero] at hempty
  constructor
  · intro hloads
    obtain ⟨p', k₁, hp, hcall₀, hloaded⟩ := hloads pcb _ hcall
    cases h.tcb.symm.trans hp
    cases hempty.symm.trans hcall₀
    exact hloaded
  · intro hloaded pcb' k' hcall'
    cases hcall.symm.trans hcall'
    exact ⟨p, k₀, h.tcb, hempty, hloaded⟩

/-- A process that is made has its code loaded, whatever that is, exactly if it is made where the second of the free
frames starts a row of them that is long enough: the pages are mapped one by one, the copy runs straight on. -/
theorem code_loaded_iff (hT : Built memMapSource k.sched.cr3 T k.mem k.mmap)
    (hlarge : ∀ va, InLowerHalf va → NoLarger 0 k.mem 4 k.sched.cr3 va)
    (hsize : args.codeSize ≤ 4096 * args.allocationInfo.codePages)
    (hcall : createProcess args k = .ok (some pcb, k')) :
    (∀ bytes : Mem, LoadsCode { args with code := bytes } k) ↔ CodeInRow args.codeSize k.mmap := by
  obtain ⟨p, code, k₀, h⟩ := createProcess_prepared hcall
  obtain ⟨k₁, hsupplied, hmem, htable⟩ := h.supplied
  obtain ⟨m₀, map, T', hshown⟩ := hsupplied.codeShown hT hlarge
  rw [hshown.inRow_iff hT.apart.ok hsize, ← hshown.loaded_iff hT.apart.ok hsize, ← hmem, ← htable]
  exact forall_congr' h.loadsCode_iff

end

/-! ## A frame in between -/

/-- A map of 64 frames, of which the third is used. -/
def gapFrames : MemMap :=
  { memSize := 0x140000
    regions := [⟨0x100000, 0x40000, 0, 1, 63⟩]
    bitmap := ⟨64, fun i => if i = 0 then 0x04 else 0⟩ }

theorem gapFrames_wf : WF gapFrames := by
  refine wf_single rfl ⟨by decide, by decide, by decide, by decide, by decide⟩ ⟨rfl, by decide, rfl⟩ ?_
    (by decide +kernel)
  intro j h1 h2
  have h1 : 64 ≤ j := h1
  have h2 : j < 64 := h2
  omega

/-- A kernel with one thread and that map. -/
def gapKernel : Kernel := { newKernel with mmap := gapFrames, sched := { schedulerInit firstTcb idle with cr3 := 0x1000 } }

/-- Code of `size` bytes that are all the same. -/
def sameCode (size : Nat) : ProcessArgs := { processArgs 2 0 0 with codeSize := size }

theorem gapKernel_built : Built memMapSource gapKernel.sched.cr3 (.only 0x1000) gapKernel.mem gapKernel.mmap := by
  refine .zeroed ⟨gapFrames_wf, ?_⟩ (by decide) ?_ fun _ _ => entryAt_zero ..
  · intro r hr
    rw [List.mem_singleton.1 hr]
    decide
  · rintro ⟨r, hr, j, -, haddr, -⟩
    rw [List.mem_singleton.1 hr] at haddr
    have haddr : 0x1000 = 0x100000 + 4096 * j := haddr
    omega

theorem code_loaded_iff_onePage : (∀ bytes : Mem, LoadsCode { sameCode 0x1000 with code := bytes } gapKernel) ↔
    CodeInRow 0x1000 gapFrames := by
  have hruns : okAnd (createProcess (sameCode 0x1000) gapKernel) (fun r => r.1.isSome) = true := by decide +kernel
  obtain ⟨⟨pcb, k'⟩, hcall, hsome⟩ := okAnd_eq_true.1 hruns
  obtain ⟨pcb, rfl⟩ := Option.isSome_iff_exists.1 hsome
  exact code_loaded_iff gapKernel_built (fun va _ => noLarger_zeroed (fun _ _ => entryAt_zero ..) 0 va) (by decide) hcall

/-- Of two pages of code the second is not where it is copied to. -/
theorem code_not_loaded : ¬LoadsCode (sameCode 0x2000) gapKernel := by
  have hruns : okAnd (createProcess (sameCode 0x2000) gapKernel) (fun r => r.1.any fun pcb =>
      pcb.processThreads.tcb.any fun p =>
        (translateByte r.2.mem (r.2.sched.tcbs p).pageTable (threadCodeVirtAddr + 0x1000)).all fun pa =>
          r.2.mem pa != 0x90) = true := by decide +kernel
  obtain ⟨⟨pcb, k'⟩, hcall, hr⟩ := okAnd_eq_true.1 hruns
  cases pcb with
  | none => cases hr
  | some pcb =>
    intro hloads
    obtain ⟨p, k₀, hp, -, hloaded⟩ := hloads pcb k' hcall
    obtain ⟨pa, hpa, hread⟩ := hloaded.reads 0x1000 (by decide)
    dsimp only at hr
    rw [Option.any_some, hp, Option.any_some, hpa, Option.all_some, hread] at hr
    exact absurd hr (by decide)

end Icarus.Processes
