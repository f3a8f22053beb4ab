/-
The isolation of threads over whole runs of `create_process` and timer ticks: when the table in CR3 has nothing in
the slots of the sub-spaces that are about to get pages, the new thread shares no table there with another one, and
what is mapped for it is seen by nobody else.
-/
import Icarus.Processes.Construction

namespace Icarus.Processes

open Icarus.Base Icarus.Memory

/-! ## What the scheduler does to the tables -/

/-- The control blocks name the same root tables, and CR3 holds the same. -/
structure SameRoots (s s' : Sched) : Prop where
  pageTable : ∀ p, (s'.tcbs p).pageTable = (s.tcbs p).pageTable
  cr3 : s'.cr3 = s.cr3

section
variable {s s' s'' : Sched}

theorem SameRoots.refl (s : Sched) : SameRoots s s := ⟨fun _ => rfl, rfl⟩

theorem SameRoots.modify {f : Tcb → Tcb} (h : SameRoots s s') (p : TcbPtr) (hf : ∀ t, (f t).pageTable = t.pageTable) :
    SameRoots s (s'.modify p f) :=
  ⟨fun x => (congrFun (s'.field_modify_same p hf) x).trans (h.pageTable x), h.cr3⟩

theorem SameRoots.setNext (h : SameRoots s s') (p : TcbPtr) (v : Option TcbPtr) : SameRoots s (s'.setNext p v) :=
  h.modify p fun _ => rfl

theorem SameRoots.setPrev (h : SameRoots s s') (p : TcbPtr) (v : Option TcbPtr) : SameRoots s (s'.setPrev p v) :=
  h.modify p fun _ => rfl

theorem SameRoots.setActivePriority (h : SameRoots s s') (p : TcbPtr) (v : Nat) :
    SameRoots s (s'.setActivePriority p v) :=
  h.modify p fun _ => rfl

theorem SameRoots.setState (h : SameRoots s s') (p : TcbPtr) (v : ThreadState) : SameRoots s (s'.setState p v) :=
  h.modify p fun _ => rfl

theorem pickLoop_roots {fuel max max' : Nat} {active best best' : Option TcbPtr} {s₀ : Sched} (hs : SameRoots s₀ s)
    (h : pickLoop fuel active s best max = .ok (s', best', max')) : SameRoots s₀ s' := by
  induction fuel generalizing active s best max with
  | zero =>
    cases active with
    | none =>
      cases h
      exact hs
    | some p => cases h
  | succ fuel ih =>
    cases active with
    | none =>
      cases h
      exact hs
    | some p =>
      unfold pickLoop at h
      dsimp only at h
      split_ifs at h
      · exact ih hs h
      · exact ih (hs.setActivePriority ..) h
      · exact ih (hs.setActivePriority ..) h

theorem putLast_roots {best y : TcbPtr} {s₀ : Sched} (hs : SameRoots s₀ s) (h : putLast best s = .ok (y, s')) :
    SameRoots s₀ s' := by
  obtain ⟨last, -, h⟩ := bind_eq_ok.1 h
  cases h
  have hlinks := ((hs.setNext last (some best)).setPrev best (some last)).setNext best none
  exact ⟨hlinks.pageTable, hlinks.cr3⟩

theorem unlinkBest_roots {best y : TcbPtr} {s₀ : Sched} (hs : SameRoots s₀ s) (h : unlinkBest best s = .ok (y, s')) :
    SameRoots s₀ s' := by
  unfold unlinkBest at h
  split at h
  · obtain ⟨top, -, h⟩ := bind_eq_ok.1 h
    have htop : SameRoots s₀ { s with topTcb := some top } := ⟨hs.pageTable, hs.cr3⟩
    exact putLast_roots (htop.setPrev top none) h
  · cases h
    exact hs
  · exact putLast_roots ((hs.setNext ..).setPrev ..) h

theorem schedulerPickNextThread_roots {fuel : Nat} {src : InterruptSrc} {y : TcbPtr}
    (h : schedulerPickNextThread fuel src s = .ok (y, s')) : SameRoots s s' := by
  obtain ⟨⟨s₁, best, max⟩, hloop, h⟩ := bind_eq_ok.1 h
  have hs₁ := pickLoop_roots (.refl s) hloop
  dsimp only at h
  split_ifs at h
  · cases src with
    | tmr =>
      obtain ⟨last, -, h⟩ := bind_eq_ok.1 h
      cases h
      exact hs₁.setActivePriority ..
    | kbd => cases h
    | gen => cases h
  · obtain ⟨b, -, h⟩ := bind_eq_ok.1 h
    exact unlinkBest_roots ((hs₁.setActivePriority ..).setState ..) h

theorem schedulerAddThread_roots {p : TcbPtr} (h : schedulerAddThread p s = .ok s') : SameRoots s s' := by
  rw [schedulerAddThread_eq] at h
  cases hput : putLast p s with
  | error e =>
    rw [hput] at h
    cases h
  | ok r =>
    rw [hput] at h
    cases h
    have hs := putLast_roots (.refl s) hput
    exact ⟨hs.pageTable, hs.cr3⟩

/-- `schedule` loads the root table of the thread it dispatches. -/
theorem schedule_roots {fuel : Nat} {frame : Mem} {src : InterruptSrc} (h : schedule fuel frame src s = .ok s') :
    (∀ p, (s'.tcbs p).pageTable = (s.tcbs p).pageTable) ∧
      ∃ y, s'.runningTcb = some y ∧ s'.cr3 = (s'.tcbs y).pageTable := by
  obtain ⟨⟨y, s₁⟩, hpick, h⟩ := bind_eq_ok.1 h
  have hs₁ := schedulerPickNextThread_roots hpick
  obtain ⟨running, -, h⟩ := bind_eq_ok.1 h
  cases h
  refine ⟨fun p => ?_, y, rfl, rfl⟩
  rw [switch_tcbs]
  exact hs₁.pageTable p

end

theorem Sched.setState_eq_self {s : Sched} {p : TcbPtr} {v : ThreadState} (h : (s.tcbs p).state = v) :
    s.setState p v = s := by
  have hsame : s.setState p v = s.modify p fun _ => s.tcbs p := by
    subst h
    rfl
  rw [hsame, Sched.modify_const]

/-! ## What a new process does to the tables -/

/-- The tables grow, and the ways of addresses stay clear of large pages. -/
structure TablesGrow (T : Tables) (m : Mem) (T' : Tables) (m' : Mem) (mmap' : MemMap) : Prop where
  wf : T'.WF m'
  apart : T'.Apart memMapSource mmap'
  le : T.Le T'
  clear : ∀ g va, T.level g = 4 → Clear m va 3 g → Clear m' va 3 g

/-- No table of `T` is written. -/
def TablesKept (T : Tables) (m m' : Mem) : Prop := ∀ g j, T.level g ≠ 0 → j < 512 → entryAt m' g j = entryAt m g j

/-- The slots of the sub-spaces that get pages are empty in the root. -/
def SlotsEmpty (info : AllocationInfo) (m : Mem) (root : Nat) : Prop :=
  ∀ sub, info.pages sub ≠ 0 → info.pages sub ≤ 510 → (entryAt m root (vaIndex (subSpaceToAddr sub) 3)).present = false

section
variable {T T' T'' : Tables} {m m' m'' : Mem} {mmap mmap' mmap'' : MemMap} {k k' : Kernel}

theorem TablesGrow.trans (h : TablesGrow T m T' m' mmap') (h' : TablesGrow T' m' T'' m'' mmap'') :
    TablesGrow T m T'' m'' mmap'' := by
  refine ⟨h'.wf, h'.apart, h.le.trans h'.le, fun g va hg hclear => ?_⟩
  exact h'.clear g va ((h.le g (by omega)).1.trans hg) (h.clear g va hg hclear)

theorem TablesKept.trans (h : TablesKept T m m') (hle : T.Le T') (h' : TablesKept T' m' m'') : TablesKept T m m'' := by
  intro g j hg hj
  have hg' : T'.level g ≠ 0 := by rwa [(hle g hg).1]
  exact (h' g j hg' hj).trans (h g j hg hj)

/-- Memory that keeps all tables. -/
theorem TablesKept.grow (h : TablesKept T m m') (hwf : T.WF m) (hs : T.Apart memMapSource mmap) :
    TablesGrow T m T m' mmap := by
  refine ⟨Tables.WF.congr h hwf, hs, .refl T, fun g va hg hclear => ?_⟩
  exact (way_congr hwf (fun g j h1 _ hj => h g j (by omega) hj) hg hclear).1

theorem TablesKept.translate (h : TablesKept T m m') (hwf : T.WF m) {root va : Nat} (hroot : T.level root = 4) :
    translate m' root va = translate m root va := by
  unfold Icarus.Memory.translate
  rw [mmuWalk_congr hwf (fun g j hg _ hj => h g j hg hj) hroot]

/-- Memory for no thread goes into free frames. -/
theorem Wasted.kept {pages : Nat} (h : Wasted pages k k') (hwf : T.WF k.mem) (hs : T.Apart memMapSource k.mmap) :
    TablesKept T k.mem k'.mem ∧ TablesGrow T k.mem T k'.mem k'.mmap := by
  cases h with
  | refused =>
    have hkept : TablesKept T k.mem k.mem := fun _ _ _ _ => rfl
    exact ⟨hkept, hkept.grow hwf hs⟩
  | @lost mem n _ _ hfill =>
    have hkept : TablesKept T k.mem mem := fun g j => hs.fill_entryAt hwf hfill
    refine ⟨hkept, hkept.grow hwf ⟨memMapSource.ok_after hs.ok _, fun f hf => ?_⟩⟩
    exact hs.free f (memMapSource.free_after hs.ok _ hf)

section
variable {isPrivileged : Bool} {priority : BitVec 16} {info : AllocationInfo} {p : TcbPtr} {root : Nat}
variable {supply : SupplyBlock} {t : Tcb}

/-- A thread that was made and supplied has a root of its own, which is as clear as the one in CR3. -/
theorem Spawned.grow (h : Spawned isPrivileged priority info k T p root supply T' t k') (hwf : T.WF k.mem)
    (hs : T.Apart memMapSource k.mmap) (hcr3 : T.level k.sched.cr3 = 4)
    (hclear : ∀ sub, Clear k.mem (subSpaceToAddr sub) 3 k.sched.cr3) :
    TablesGrow T k.mem T' k'.mem k'.mmap ∧ T'.level root = 4 ∧ ∀ sub, Clear k'.mem (subSpaceToAddr sub) 3 root := by
  obtain ⟨k₁, hc, hsup⟩ := h.created
  obtain ⟨hnew, hcopy, hwf₁, hs₁⟩ := hc.tables hwf hs hcr3
  have hroot₁ : (T.insert root 4 (T.pre k.sched.cr3)).level root = 4 := Tables.level_insert_self
  have hle₁ : T.Le (T.insert root 4 (T.pre k.sched.cr3)) := Tables.le_insert hnew
  obtain ⟨hwf₂, hs₂, hle₂⟩ := hsup.run.sound hwf₁ hs₁ hroot₁
  have hcopied : ∀ g va, T.level g = 4 → Clear k.mem va 3 g → Clear k₁.mem va 3 g := fun g va hg hclear =>
    (way_congr hwf (fun g j h1 _ hj => entryAt_of_frame hwf hnew hc.mem (by omega) hj) hg hclear).1
  refine ⟨⟨hwf₂, hs₂, hle₁.trans hle₂, fun g va hg hclear => ?_⟩, hsup.run.level_root hwf₁ hs₁ hroot₁, fun sub => ?_⟩
  · exact hsup.run.clear hwf₁ hs₁ hroot₁ ((hle₁ g (by omega)).1.trans hg) (hcopied g va hg hclear)
  · exact hsup.run.clear hwf₁ hs₁ hroot₁ hroot₁ (copied_way hwf hnew hcr3 hc.mem hcopy (hclear sub)).1

/-- With the slots empty in the table CR3 holds, the tables that were there are out of reach for `page_in`. -/
theorem Spawned.kept (h : Spawned isPrivileged priority info k T p root supply T' t k') (hwf : T.WF k.mem)
    (hs : T.Apart memMapSource k.mmap) (hcr3 : T.level k.sched.cr3 = 4)
    (hslots : SlotsEmpty info k.mem k.sched.cr3) : TablesKept T k.mem k'.mem := by
  obtain ⟨k₁, hc, hsup⟩ := h.created
  obtain ⟨hnew, hcopy, hwf₁, hs₁⟩ := hc.tables hwf hs hcr3
  have hroot₁ : (T.insert root 4 (T.pre k.sched.cr3)).level root = 4 := Tables.level_insert_self
  have hreach : (T.insert root 4 (T.pre k.sched.cr3)).OutOfReach k₁.mem {g | T.level g ≠ 0} root
      {i | ∃ sub, info.pages sub ≠ 0 ∧ info.pages sub ≤ 510 ∧ i = vaIndex (subSpaceToAddr sub) 3} := by
    refine ⟨?_, fun h0 => h0 hnew, ?_, ?_⟩
    · intro g hg
      rwa [(Tables.le_insert hnew g hg).1]
    · rintro i ⟨sub, hpos, hfew, rfl⟩ hi hp
      rw [hcopy _ hi, hslots sub hpos hfew] at hp
      cases hp
    · -- every other table was there before
      intro g l j hg hne hl
      rw [Tables.level_insert_of_ne hne] at hl
      exact absurd (show T.level g ≠ 0 by omega) hg
  have hV : ∀ va ∈ suppliedPages info, vaIndex va 3 ∈
      {i | ∃ sub, info.pages sub ≠ 0 ∧ info.pages sub ≤ 510 ∧ i = vaIndex (subSpaceToAddr sub) 3} := by
    rintro va ⟨sub, hfew, hpos, hsame⟩
    exact ⟨sub, hpos, hfew, hsame 3 (by decide) le_rfl⟩
  have hsame := (hsup.run.outOfReach hwf₁ hs₁ hroot₁ hreach hV).2
  intro g j hg hj
  exact (hsame g hg j hj).trans (entryAt_of_frame hwf hnew hc.mem hg hj)

/-- The control block of the thread. -/
theorem Spawned.tcb (h : Spawned isPrivileged priority info k T p root supply T' t k') :
    t.pageTable = root ∧ t.Fresh := by
  obtain ⟨k₁, hc, hsup⟩ := h.created
  have hnew : k₁.sched.tcbs p = newTcb k.tidGen isPrivileged priority root := by rw [hc.sched, Sched.tcbs_modify_self]
  have ht := hsup.tcb
  rw [hnew] at ht
  have hlt := priority.isLt
  have hprio := hc.accepted
  unfold uint16Max at hprio
  refine ⟨by rw [ht]; rfl, ⟨?_, by rw [ht]; rfl⟩⟩
  rw [ht]
  show priority.toNat ≤ 65534
  omega

end

end

/-- The bytes of the code stay in the frames that are taken for it, after the one for the root table. -/
def CodeFits (args : ProcessArgs) (k : Kernel) : Prop :=
  ∀ i, i < args.codeSize → (memMapSource.nth 1 k.mmap + i) / 4096 * 4096 ∈
    memMapSource.taken (frameCount args.allocationInfo.codePages) (memMapSource.after 1 k.mmap)

/-- Code of one page at most always fits. -/
theorem codeFits_of_le {args : ProcessArgs} {k : Kernel} (hok : memMapSource.Ok k.mmap)
    (hserves : memMapSource.Serves 2 k.mmap) (h : args.codeSize ≤ 4096) : CodeFits args k := by
  intro i hi
  have haligned : memMapSource.nth 1 k.mmap % 4096 = 0 :=
    memMapSource.aligned _ _ (memMapSource.ok_after hok 1) (hserves.nth_mem hok Nat.one_lt_two).1
  refine ⟨0, ?_, ?_⟩
  · unfold frameCount
    omega
  · rw [show (memMapSource.nth 1 k.mmap + i) / 4096 * 4096 = memMapSource.nth 1 k.mmap by omega]
    rfl

/-- A thread of a process that was just made. -/
structure NewThread (k k' : Kernel) (T' : Tables) (p : TcbPtr) (t : Tcb) : Prop where
  real : p ≠ .dummy
  fresh : ∀ b ∈ k.heap.live, b.1 ≠ p.heapAddr
  block : (p.heapAddr, tcbSize) ∈ k'.heap.live
  sched : k'.sched = k.sched.modify p fun _ => t
  tcb : t.Fresh
  root : T'.level t.pageTable = 4
  clear : ∀ sub, Clear k'.mem (subSpaceToAddr sub) 3 t.pageTable

/-- What `init_process` leaves when it returns. -/
structure InitKept (args : ProcessArgs) (k : Kernel) (T : Tables) (r : Option Pcb) (k' : Kernel) (T' : Tables) : Prop where
  grow : TablesGrow T k.mem T' k'.mem k'.mmap
  kept : SlotsEmpty args.allocationInfo k.mem k.sched.cr3 → TablesKept T k.mem k'.mem
  blocks : ∀ b ∈ k.heap.live, b ∈ k'.heap.live
  heap : r ≠ none → HeapIntact k'.heap
  thread : k'.sched = k.sched ∧ r = none ∨ ∃ p t, NewThread k k' T' p t ∧ ∀ pcb, r = some pcb →
    pcb.processThreads.tcb = some p

section
variable {args : ProcessArgs} {T T' : Tables} {k k' k₂ : Kernel} {p : TcbPtr} {root sp code : Nat} {heap : Heap}
variable {supply : SupplyBlock} {t : Tcb} {r : Option Pcb}

theorem Spawned.newThread (h : Spawned args.isPrivileged args.priority args.allocationInfo (withSupplyBlock k sp heap) T p
      root supply T' t k₂)
    (hgrow : T'.level root = 4 ∧ ∀ sub, Clear k'.mem (subSpaceToAddr sub) 3 root)
    (hblock : (p.heapAddr, tcbSize) ∈ k'.heap.live) (hsched : k'.sched = k₂.sched) : NewThread k k' T' p t := by
  obtain ⟨htable, hfresh⟩ := h.tcb
  rw [← htable] at hgrow
  exact ⟨h.real, fun b hb => h.fresh b (List.mem_cons_of_mem _ hb), hblock, hsched.trans h.sched, hfresh, hgrow.1,
    hgrow.2⟩

/-- The code is written into no table. -/
theorem Spawned.code_kept (h : Spawned args.isPrivileged args.priority args.allocationInfo (withSupplyBlock k sp heap) T p
      root supply T' t k₂)
    (hwf : T'.WF k₂.mem) (hfits : CodeFits args k) (hcode : supply.codeMemory = some code) :
    TablesKept T' k₂.mem (k₂.mem.copy code args.code 0 args.codeSize) := by
  obtain ⟨k₁, hc, hsup⟩ := h.created
  obtain ⟨hfirst, hheld⟩ := hsup.code code hcode
  have hafter : memMapSource.after 1 k.mmap = k₁.mmap := congrArg Prod.snd hc.alloc
  intro g j hg hj
  have hga := hwf.aligned g hg
  refine Mem.load_congr fun x h1 h2 => ?_
  by_cases hin : x < code ∨ code + args.codeSize ≤ x
  · exact Mem.copy_of_lt hin
  · have htaken := hfits (x - code) (by omega)
    rw [show memMapSource.nth 1 k.mmap = code by rw [hfirst, ← hafter]; rfl, hafter,
      show (code + (x - code)) / 4096 * 4096 = g by omega] at htaken
    exact absurd (hheld.held g htaken).1 hg

theorem initProcess_kept (hwf : T.WF k.mem) (hs : T.Apart memMapSource k.mmap) (hcr3 : T.level k.sched.cr3 = 4)
    (hclear : ∀ sub, Clear k.mem (subSpaceToAddr sub) 3 k.sched.cr3) (hheap : HeapIntact k.heap)
    (hfits : CodeFits args k) (h : initProcess args k = .ok (r, k')) : ∃ T', InitKept args k T r k' T' := by
  have hout := @initProcess_spec args k T hwf hs hcr3 hclear hheap
  rw [h] at hout
  cases hout with
  | @refused sp heap heap' k₁ k₂ k₃ _ _ _ h₁ h₂ h₃ =>
    obtain ⟨hkept₁, hgrow₁⟩ := @Wasted.kept T (withSupplyBlock k sp heap) k₁ _ h₁ hwf hs
    obtain ⟨hkept₂, hgrow₂⟩ := h₂.kept hgrow₁.wf hgrow₁.apart
    obtain ⟨hkept₃, hgrow₃⟩ := h₃.kept hgrow₂.wf hgrow₂.apart
    refine ⟨T, (hgrow₁.trans hgrow₂).trans hgrow₃, ?_, fun b hb => hb, fun h0 => absurd rfl h0, .inl ⟨?_, rfl⟩⟩
    · exact fun _ => (hkept₁.trans (.refl T) hkept₂).trans (.refl T) hkept₃
    · show k₃.sched = k.sched
      rw [h₃.rest, h₂.rest, h₁.rest]
      rfl
  | @failed sp _ _ root heap heap' p supply T' t k₂ _ _ hspawned _ hs' hk₃ hlive =>
    obtain ⟨hgrow, hroot⟩ := hspawned.grow hwf hs hcr3 hclear
    have hmem : k'.mem = k₂.mem := by rw [hk₃]
    refine ⟨T', ?_, ?_, ?_, fun h0 => absurd rfl h0, .inr ⟨p, t, ?_, ?_⟩⟩
    · rw [hmem]
      exact ⟨hgrow.wf, hs', hgrow.le, hgrow.clear⟩
    · rw [hmem]
      exact hspawned.kept hwf hs hcr3
    · intro b hb
      rw [hlive]
      simp [hb]
    · refine hspawned.newThread ?_ ?_ ?_
      · rw [hmem]
        exact hroot
      · rw [hlive]
        simp
      · rw [hk₃]
    · intro pcb hpcb
      cases hpcb
  | @made sp _ _ root code heap heap' p supply T' t k₂ pcb _ hspawned _ hcode hp hintact =>
    obtain ⟨hgrow, hroot⟩ := hspawned.grow hwf hs hcr3 hclear
    have hcopied := hspawned.code_kept hgrow.wf hfits hcode
    have hgrow' := hcopied.grow hgrow.wf hgrow.apart
    refine ⟨T', hgrow.trans hgrow', ?_, ?_, fun _ => hintact, .inr ⟨p, t, ?_, ?_⟩⟩
    · exact fun hslots => (hspawned.kept hwf hs hcr3 hslots).trans hgrow.le hcopied
    · intro b hb
      simp [hb]
    · refine hspawned.newThread ⟨hroot.1, fun sub => hgrow'.clear _ _ hroot.1 (hroot.2 sub)⟩ ?_ rfl
      simp
    · rintro pcb' hpcb
      cases hpcb
      exact hp

end

/-! ## Runs -/

/-- The kernel with the threads in its queue and the ticks it took. -/
structure ProcessRun where
  kernel : Kernel
  threads : List TcbPtr
  ticks : Nat

/-- What can happen. -/
inductive ProcessEvent
  | create (args : ProcessArgs)
  | tick (fuel : Nat) (frame : Mem)

/-- The threads of a process, if there is one. -/
def threadsOf (pcb : Option Pcb) : List TcbPtr := (pcb.bind fun pcb => pcb.processThreads.tcb).toList

/-- A process that was made has one thread, a new one. -/
theorem InitKept.made {args : ProcessArgs} {T T' : Tables} {k k' : Kernel} {pcb : Pcb}
    (h : InitKept args k T (some pcb) k' T') :
    ∃ p t, NewThread k k' T' p t ∧ pcb.processThreads.tcb = some p ∧ threadsOf (some pcb) = [p] := by
  rcases h.thread with ⟨-, h0⟩ | ⟨p, t, hnew, hp⟩
  · cases h0
  · exact ⟨p, t, hnew, hp pcb rfl, congrArg Option.toList (hp pcb rfl)⟩

/-- `create_initial_process`, with which a run starts. -/
def startRun (args : ProcessArgs) (k : Kernel) : Except Fault ProcessRun := do
  let (pcb, k) ← createInitialProcess args k
  return ⟨k, threadsOf pcb, 0⟩

/-- A call of `create_process`, or a timer tick. -/
def ProcessRun.step (r : ProcessRun) : ProcessEvent → Except Fault ProcessRun
  | .create args => do
    let (pcb, k) ← createProcess args r.kernel
    return ⟨k, threadsOf pcb ++ r.threads, r.ticks⟩
  | .tick fuel frame => do
    let sched ← schedule fuel frame .tmr r.kernel.sched
    return ⟨{ r.kernel with sched }, r.threads, r.ticks + 1⟩

/-- A process is made where nothing is shared: the heap is in order, the code fits into its frames, and the table in
CR3 has nothing in the slots of the sub-spaces that get pages. -/
structure Separate (args : ProcessArgs) (k : Kernel) : Prop where
  heap : HeapIntact k.heap
  code : CodeFits args k
  slots : SlotsEmpty args.allocationInfo k.mem k.sched.cr3

/-- The same of an event; a tick makes nothing. -/
def ProcessEvent.Separate (r : ProcessRun) : ProcessEvent → Prop
  | .create args => Processes.Separate args r.kernel
  | .tick .. => True

/-- Runs whose every process is made where nothing is shared. -/
inductive SeparateRun (r₀ : ProcessRun) : ProcessRun → Prop
  | refl : SeparateRun r₀ r₀
  | step {r r' : ProcessRun} {event : ProcessEvent} : SeparateRun r₀ r → r.step event = .ok r' → event.Separate r →
      SeparateRun r₀ r'

/-- A run starts in a kernel without threads, with well formed tables, when the initial process can be made. -/
inductive Started : ProcessRun → Prop
  | intro {args : ProcessArgs} {k : Kernel} {T : Tables} {r : ProcessRun} : T.WF k.mem → T.Apart memMapSource k.mmap →
      T.level k.sched.cr3 = 4 → (∀ sub, Clear k.mem (subSpaceToAddr sub) 3 k.sched.cr3) → k.sched.threadCount = 0 →
        HeapIntact k.heap → CodeFits args k → startRun args k = .ok r → r.threads ≠ [] → Started r

/-- The root table of a thread. -/
def ProcessRun.root (r : ProcessRun) (p : TcbPtr) : Nat := (r.kernel.sched.tcbs p).pageTable

/-- Every thread of `r` sees its sub-spaces in `r'` as it saw them in `r`. -/
def Isolated (r r' : ProcessRun) : Prop :=
  ∀ p ∈ r.threads, ∀ sub va, vaIndex va 3 = vaIndex (subSpaceToAddr sub) 3 →
    translate r'.kernel.mem (r'.root p) va = translate r.kernel.mem (r.root p) va

/-! ## The invariant -/

/-- The address is a root in use: CR3 holds it, or a control block names it. -/
def ProcessRun.IsRoot (r : ProcessRun) (g : Nat) : Prop := g = r.kernel.sched.cr3 ∨ ∃ p ∈ r.threads, g = r.root p

/-- The tables of the kernel and of all threads are well formed and apart from the free frames, nothing lies in the
slots of the sub-spaces of the roots in use, and the queue and the heap are in order. -/
structure RunInv (r : ProcessRun) (T : Tables) : Prop where
  wf : T.WF r.kernel.mem
  apart : T.Apart memMapSource r.kernel.mmap
  queue : ∃ q y, QueueInv r.threads r.ticks r.kernel.sched q y
  root : ∀ g, r.IsRoot g → T.level g = 4
  clear : ∀ g, r.IsRoot g → ∀ sub, Clear r.kernel.mem (subSpaceToAddr sub) 3 g
  blocks : ∀ p ∈ r.threads, (p.heapAddr, tcbSize) ∈ r.kernel.heap.live

/-- What a step keeps. -/
structure StepKept (r r' : ProcessRun) (T T' : Tables) : Prop where
  inv : RunInv r' T'
  threads : ∀ p ∈ r.threads, p ∈ r'.threads
  isolated : Isolated r r'

section
variable {r r' r'' : ProcessRun} {T T' : Tables}

/-- The same roots over tables that are kept. -/
theorem isolated_of_kept (h : RunInv r T) (hkept : TablesKept T r.kernel.mem r'.kernel.mem)
    (hroots : ∀ p ∈ r.threads, r'.root p = r.root p) : Isolated r r' := by
  intro p hp sub va _
  rw [hroots p hp]
  exact hkept.translate h.wf (h.root _ (.inr ⟨p, hp, rfl⟩))

/-- A control block that was just allocated is none of the threads. -/
theorem RunInv.not_mem (h : RunInv r T) {p : TcbPtr} (hfresh : ∀ b ∈ r.kernel.heap.live, b.1 ≠ p.heapAddr) :
    p ∉ r.threads := fun hp => hfresh _ (h.blocks p hp) rfl

/-- Timer ticks move CR3 from root to root. -/
theorem RunInv.tick {fuel : Nat} {frame : Mem} {sched : Sched} (h : RunInv r T)
    (hs : schedule fuel frame .tmr r.kernel.sched = .ok sched) :
    StepKept r ⟨{ r.kernel with sched }, r.threads, r.ticks + 1⟩ T T := by
  obtain ⟨q, y, hq⟩ := h.queue
  obtain ⟨z, q', ht⟩ := hq.schedule_ticked hs
  obtain ⟨htable, z', hrunning, hcr3⟩ := schedule_roots hs
  have hz : z' = z := Option.some.inj (hrunning.symm.trans ht.running)
  have hmem := hq.picked_mem ht.picked
  have hroot : ∀ g, ProcessRun.IsRoot ⟨{ r.kernel with sched }, r.threads, r.ticks + 1⟩ g → r.IsRoot g := by
    rintro g (rfl | ⟨p, hp, rfl⟩)
    · refine .inr ⟨z, hmem, ?_⟩
      show sched.cr3 = _
      rw [hcr3, hz, htable]
      rfl
    · exact .inr ⟨p, hp, htable p⟩
  refine ⟨⟨h.wf, h.apart, ⟨q', z, hq.tick ht⟩, fun g hg => h.root g (hroot g hg), fun g hg => h.clear g (hroot g hg),
    h.blocks⟩, fun p hp => hp, ?_⟩
  exact isolated_of_kept h (fun _ _ _ _ => rfl) fun p _ => htable p

/-- The invariant after a call of `create_process` that changes the roots in use by that of `added` at most. -/
theorem RunInv.grow {k : Kernel} {threads : List TcbPtr} (h : RunInv r T)
    (hgrow : TablesGrow T r.kernel.mem T' k.mem k.mmap) (hcr3 : k.sched.cr3 = r.kernel.sched.cr3)
    (hqueue : ∃ q y, QueueInv threads r.ticks k.sched q y)
    (hroots : ∀ p ∈ r.threads, (k.sched.tcbs p).pageTable = r.root p)
    (hblocks : ∀ p ∈ threads, (p.heapAddr, tcbSize) ∈ k.heap.live)
    (hthreads : ∀ p ∈ threads, p ∈ r.threads ∨ T'.level (k.sched.tcbs p).pageTable = 4 ∧
      ∀ sub, Clear k.mem (subSpaceToAddr sub) 3 (k.sched.tcbs p).pageTable) : RunInv ⟨k, threads, r.ticks⟩ T' := by
  have hold : ∀ g, r.IsRoot g → T'.level g = 4 ∧ ∀ sub, Clear k.mem (subSpaceToAddr sub) 3 g := by
    intro g hg
    have hlevel := h.root g hg
    exact ⟨(hgrow.le g (by omega)).1.trans hlevel, fun sub => hgrow.clear g _ hlevel (h.clear g hg sub)⟩
  have hall : ∀ g, ProcessRun.IsRoot ⟨k, threads, r.ticks⟩ g →
      T'.level g = 4 ∧ ∀ sub, Clear k.mem (subSpaceToAddr sub) 3 g := by
    rintro g (rfl | ⟨p, hp, rfl⟩)
    · exact hold _ (.inl hcr3)
    · rcases hthreads p hp with hin | hnew
      · exact hold _ (.inr ⟨p, hin, hroots p hin⟩)
      · exact hnew
  exact ⟨hgrow.wf, hgrow.apart, hqueue, fun g hg => (hall g hg).1, fun g hg => (hall g hg).2, hblocks⟩

/-- A call that returns `NULL`. -/
theorem RunInv.refused {args : ProcessArgs} {k : Kernel} (h : RunInv r T) (hsep : Separate args r.kernel)
    (hcall : createProcess args r.kernel = .ok (none, k)) : ∃ T', StepKept r ⟨k, r.threads, r.ticks⟩ T T' := by
  obtain ⟨⟨pcb, k₁⟩, hinit, hcall⟩ := bind_eq_ok.1 hcall
  obtain ⟨T', hkept⟩ := initProcess_kept h.wf h.apart (h.root _ (.inl rfl)) (h.clear _ (.inl rfl)) hsep.heap hsep.code
    hinit
  obtain ⟨q, y, hq⟩ := h.queue
  cases pcb with
  | some pcb =>
    rcases hkept.thread with ⟨-, h0⟩ | ⟨p, t, -, hp⟩
    · cases h0
    · dsimp only at hcall
      rw [hp pcb rfl] at hcall
      obtain ⟨sched, -, hcall⟩ := bind_eq_ok.1 hcall
      cases hcall
  | none =>
    cases hcall
    have hsched : QueueInv r.threads r.ticks k.sched q y ∧ k.sched.cr3 = r.kernel.sched.cr3 ∧
        ∀ p ∈ r.threads, (k.sched.tcbs p).pageTable = r.root p := by
      rcases hkept.thread with ⟨hsame, -⟩ | ⟨p, t, hnew, -⟩
      · rw [hsame]
        exact ⟨hq, rfl, fun _ _ => rfl⟩
      · -- the control block of the thread that is given up
        have hnot := h.not_mem hnew.fresh
        rw [hnew.sched]
        refine ⟨hq.write_other hnew.real hnot _, rfl, fun x hx => ?_⟩
        rw [Sched.tcbs_modify_of_ne]
        · rfl
        · rintro rfl
          exact hnot hx
    obtain ⟨hq', hcr3, hroots⟩ := hsched
    refine ⟨T', h.grow hkept.grow hcr3 ⟨q, y, hq'⟩ hroots ?_ fun p hp => .inl hp, fun p hp => hp, ?_⟩
    · exact fun p hp => hkept.blocks _ (h.blocks p hp)
    · exact isolated_of_kept h (hkept.kept hsep.slots) hroots

/-- A call that makes a process. -/
theorem RunInv.created {args : ProcessArgs} {k : Kernel} {pcb : Pcb} (h : RunInv r T)
    (hsep : Separate args r.kernel) (hcall : createProcess args r.kernel = .ok (some pcb, k)) :
    ∃ T', StepKept r ⟨k, threadsOf (some pcb) ++ r.threads, r.ticks⟩ T T' := by
  obtain ⟨⟨pcb', k₁⟩, hinit, hcall⟩ := bind_eq_ok.1 hcall
  obtain ⟨T', hkept⟩ := initProcess_kept h.wf h.apart (h.root _ (.inl rfl)) (h.clear _ (.inl rfl)) hsep.heap hsep.code
    hinit
  obtain ⟨q, y, hq⟩ := h.queue
  cases pcb' with
  | none => cases hcall
  | some pcb' =>
    obtain ⟨p, t, hnew, hthread, hthreads⟩ := hkept.made
    dsimp only at hcall
    rw [hthread] at hcall
    obtain ⟨sched, hadd, hcall⟩ := bind_eq_ok.1 hcall
    cases hcall
    rw [hthreads]
    have hnot := h.not_mem hnew.fresh
    have hready : k₁.sched.setState p .ready = r.kernel.sched.modify p fun _ => { t with state := .ready } := by
      rw [hnew.sched]
      exact Sched.modify_modify ..
    have hroots := schedulerAddThread_roots hadd
    rw [hready] at hadd hroots
    obtain ⟨sched', hadd', hq', -⟩ :=
      hq.add (t := { t with state := .ready }) hnew.real hnot rfl ⟨hnew.tcb.priority, hnew.tcb.active⟩
    rw [hadd] at hadd'
    cases hadd'
    have hold : ∀ x ∈ r.threads, (sched.tcbs x).pageTable = r.root x := by
      intro x hx
      rw [hroots.pageTable, Sched.tcbs_modify_of_ne]
      · rfl
      · rintro rfl
        exact hnot hx
    have hself : (sched.tcbs p).pageTable = t.pageTable := by rw [hroots.pageTable, Sched.tcbs_modify_self]
    refine ⟨T', @RunInv.grow r T T' { k₁ with sched } (p :: r.threads) h hkept.grow hroots.cr3 ⟨_, y, hq'⟩ hold ?_ ?_,
      fun x hx => List.mem_cons_of_mem _ hx, ?_⟩
    · intro x hx
      rcases List.mem_cons.1 hx with rfl | hx
      · exact hnew.block
      · exact hkept.blocks _ (h.blocks x hx)
    · intro x hx
      rcases List.mem_cons.1 hx with rfl | hx
      · right
        rw [hself]
        exact ⟨hnew.root, hnew.clear⟩
      · exact .inl hx
    · exact isolated_of_kept h (hkept.kept hsep.slots) hold

/-- One step. -/
theorem RunInv.step {event : ProcessEvent} (h : RunInv r T) (hstep : r.step event = .ok r') (hsep : event.Separate r) :
    ∃ T', StepKept r r' T T' := by
  cases event with
  | create args =>
    obtain ⟨⟨pcb, k⟩, hcall, hstep⟩ := bind_eq_ok.1 hstep
    cases hstep
    cases pcb with
    | none => exact h.refused hsep hcall
    | some pcb => exact h.created hsep hcall
  | tick fuel frame =>
    obtain ⟨sched, hs, hstep⟩ := bind_eq_ok.1 hstep
    cases hstep
    exact ⟨T, h.tick hs⟩

/-- A run of such steps. -/
theorem RunInv.run (h : RunInv r T) (hrun : SeparateRun r r') : ∃ T', StepKept r r' T T' := by
  induction hrun with
  | refl => exact ⟨T, h, fun _ hp => hp, fun _ _ _ _ _ => rfl⟩
  | step _ hstep hsep ih =>
    obtain ⟨T₁, h₁⟩ := ih
    obtain ⟨T₂, h₂⟩ := h₁.inv.step hstep hsep
    refine ⟨T₂, h₂.inv, fun p hp => h₂.threads p (h₁.threads p hp), ?_⟩
    intro p hp sub va hva
    exact (h₂.isolated p (h₁.threads p hp) sub va hva).trans (h₁.isolated p hp sub va hva)

/-- The initial process. -/
theorem Started.inv (h : Started r) : ∃ T, RunInv r T ∧ HeapIntact r.kernel.heap := by
  obtain ⟨hwf, hs, hcr3, hclear, hcount, hheap, hfits, hrun, hsome⟩ := h
  rename_i args k T
  obtain ⟨⟨pcb, k'⟩, hcall, hr⟩ := bind_eq_ok.1 hrun
  cases hr
  obtain ⟨⟨pcb', k₁⟩, hinit, hcall⟩ := bind_eq_ok.1 hcall
  obtain ⟨T', hkept⟩ := initProcess_kept hwf hs hcr3 hclear hheap hfits hinit
  cases pcb' with
  | none =>
    cases hcall
    exact absurd rfl hsome
  | some pcb' =>
    obtain ⟨p, t, hnew, hthread, hthreads⟩ := hkept.made
    dsimp only at hcall
    rw [hthread] at hcall
    cases hcall
    rw [hthreads]
    have htcb : k₁.sched.tcbs p = t := by rw [hnew.sched, Sched.tcbs_modify_self]
    have hself := schedulerInit_tcbs_self hnew.real k₁.sched
    have hstate : (schedulerInit p k₁.sched).setState p .ready = schedulerInit p k₁.sched :=
      Sched.setState_eq_self (by rw [hself])
    have htable : ((schedulerInit p k₁.sched).tcbs p).pageTable = t.pageTable := by rw [hself, htcb]
    have hkernel : (schedulerInit p k₁.sched).cr3 = k.sched.cr3 := by
      show k₁.sched.cr3 = _
      rw [hnew.sched]
      rfl
    have hcount₁ : k₁.sched.threadCount = 0 := (congrArg Sched.threadCount hnew.sched).trans hcount
    rw [hstate]
    -- the roots are those of the kernel and of the one thread
    have hall : ∀ g, ProcessRun.IsRoot ⟨{ k₁ with sched := schedulerInit p k₁.sched }, [p], 0⟩ g →
        T'.level g = 4 ∧ ∀ sub, Clear k₁.mem (subSpaceToAddr sub) 3 g := by
      rintro g (rfl | ⟨x, hx, rfl⟩)
      · show T'.level (schedulerInit p k₁.sched).cr3 = 4 ∧
          ∀ sub, Clear k₁.mem (subSpaceToAddr sub) 3 (schedulerInit p k₁.sched).cr3
        rw [hkernel]
        exact ⟨(hkept.grow.le _ (by omega)).1.trans hcr3, fun sub => hkept.grow.clear _ _ hcr3 (hclear sub)⟩
      · rw [List.mem_singleton.1 hx]
        unfold ProcessRun.root
        rw [htable]
        exact ⟨hnew.root, hnew.clear⟩
    refine ⟨T', ⟨hkept.grow.wf, hkept.grow.apart, ⟨_, _, queueInv_init hcount₁ hnew.real ?_⟩, fun g hg => (hall g hg).1,
      fun g hg => (hall g hg).2, ?_⟩, hkept.heap (Option.some_ne_none _)⟩
    · rw [htcb]
      exact hnew.tcb
    · intro x hx
      rw [List.mem_singleton.1 hx]
      exact hnew.block

/-- Threads are isolated in every run whose processes are all made where nothing is shared: what one state of the
run maps in the sub-spaces of a thread, every later state maps there. -/
theorem threads_isolated {r₀ : ProcessRun} (hstart : Started r₀) (hrun : SeparateRun r₀ r) (hrun' : SeparateRun r r') :
    Isolated r r' := by
  obtain ⟨T, h, -⟩ := hstart.inv
  obtain ⟨T₁, h₁⟩ := h.run hrun
  obtain ⟨T₂, h₂⟩ := h₁.inv.run hrun'
  exact h₂.isolated

end

/-! ## Two processes -/

/-- The first process of a kernel, with one page of code. -/
theorem newKernel_started {r : ProcessRun} (hrun : startRun (processArgs 1 0 0) newKernel = .ok r)
    (hsome : r.threads ≠ []) : Started r := by
  have hserves : memMapSource.Serves 2 newKernel.mmap := ⟨by decide +kernel, by decide +kernel, trivial⟩
  exact .intro rootOnly_wf newKernel_apart rfl newKernel_clear rfl cutHeap_intact
    (codeFits_of_le newKernel_apart.ok hserves (by decide)) hrun hsome

/-- A second process made before the first is dispatched. -/
theorem threads_isolated_twoProcesses : ∃ r r', startRun (processArgs 1 0 0) newKernel = .ok r ∧
    r.step (.create (processArgs 1 0 0)) = .ok r' ∧ r.threads ≠ [] ∧ Isolated r r' := by
  have hruns : okAnd (startRun (processArgs 1 0 0) newKernel) (fun r =>
      decide (r.threads ≠ [] ∧ (memMapSource.alloc r.kernel.mmap).1 ≠ frameAllocFailed ∧
        (memMapSource.alloc (memMapSource.alloc r.kernel.mmap).2).1 ≠ frameAllocFailed ∧
          (entryAt r.kernel.mem r.kernel.sched.cr3 (vaIndex threadCodeVirtAddr 3)).present = false) &&
        okAnd (r.step (.create (processArgs 1 0 0))) fun _ => true) = true := by decide +kernel
  obtain ⟨r, hstart, hr⟩ := okAnd_eq_true.1 hruns
  obtain ⟨hfacts, hstep⟩ := Bool.and_eq_true_iff.1 hr
  obtain ⟨hsome, halloc, halloc', hslot⟩ := of_decide_eq_true hfacts
  obtain ⟨r', hstep, -⟩ := okAnd_eq_true.1 hstep
  have hstarted := newKernel_started hstart hsome
  obtain ⟨T, hinv, hheap⟩ := hstarted.inv
  have hseparate : Separate (processArgs 1 0 0) r.kernel := by
    refine ⟨hheap, codeFits_of_le hinv.apart.ok ⟨halloc, halloc', trivial⟩ (by decide), ?_⟩
    rintro (_ | _ | _) hpos -
    · exact hslot
    · exact absurd rfl hpos
    · exact absurd rfl hpos
  exact ⟨r, r', hstart, hstep, hsome, threads_isolated hstarted .refl (.step .refl hstep hseparate)⟩

/-- A tick puts the root of the first thread into CR3; a process made then maps its code there as well. -/
theorem threads_not_isolated : ∃ r₀ r₁ r₂, Started r₀ ∧ r₀.step (.tick 2 fun _ => 0) = .ok r₁ ∧
    r₁.step (.create (processArgs 1 0 0)) = .ok r₂ ∧ ¬Isolated r₁ r₂ := by
  have hruns : okAnd (startRun (processArgs 1 0 0) newKernel) (fun r₀ => decide (r₀.threads ≠ []) &&
      okAnd (r₀.step (.tick 2 fun _ => 0)) fun r₁ => okAnd (r₁.step (.create (processArgs 1 0 0))) fun r₂ =>
        decide (∃ p ∈ r₁.threads, translate r₂.kernel.mem (r₂.root p) threadCodeVirtAddr ≠
          translate r₁.kernel.mem (r₁.root p) threadCodeVirtAddr)) = true := by decide +kernel
  obtain ⟨r₀, hstart, hr₀⟩ := okAnd_eq_true.1 hruns
  obtain ⟨hsome, hr₀⟩ := Bool.and_eq_true_iff.1 hr₀
  obtain ⟨r₁, htick, hr₁⟩ := okAnd_eq_true.1 hr₀
  obtain ⟨r₂, hcreate, hr₂⟩ := okAnd_eq_true.1 hr₁
  obtain ⟨p, hp, hchanged⟩ := of_decide_eq_true hr₂
  refine ⟨r₀, r₁, r₂, newKernel_started hstart (of_decide_eq_true hsome), htick, hcreate, fun hisolated => ?_⟩
  exact hchanged (hisolated p hp .code threadCodeVirtAddr rfl)

end Icarus.Processes
