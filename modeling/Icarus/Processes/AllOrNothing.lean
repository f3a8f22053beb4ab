/-
`create_process` promises that it frees everything when an allocation fails. Exactly when it is all or nothing:
when nothing fails, or when the priority and all three page counts are refused.
-/
import Icarus.Processes.Construction

namespace Icarus.Processes

open Icarus.Base Icarus.Memory

/-! ## All or nothing -/

/-- The frame map with its bitmap, the blocks of the heap in use and the queue are as they were. -/
structure Unchanged (k k' : Kernel) : Prop where
  mmap : k'.mmap = k.mmap
  blocks : k'.heap.live.Perm k.heap.live
  top : k'.sched.topTcb = k.sched.topTcb
  last : k'.sched.lastTcb = k.sched.lastTcb
  count : k'.sched.threadCount = k.sched.threadCount
  next : ∀ p, k'.sched.nextOf p = k.sched.nextOf p
  prev : ∀ p, k'.sched.prevOf p = k.sched.prevOf p

/-- `create_process` returns, so that nothing that was refused was used as an address, and when it returns `NULL`
nothing has changed. -/
def AllOrNothing (args : ProcessArgs) (k : Kernel) : Prop :=
  ∃ r k', createProcess args k = .ok (r, k') ∧ (r = none → Unchanged k k')

/-- The tables are well formed and apart from the free frames, CR3 holds a root with no large page on the way of
a sub-space, and the headers of the heap tile it. -/
structure Intact (k : Kernel) (T : Tables) : Prop where
  wf : T.WF k.mem
  apart : T.Apart memMapSource k.mmap
  placed : T.Placed k.mem
  root : T.level k.sched.cr3 = 4
  top : T.pre k.sched.cr3 = 0
  clear : ∀ sub, Clear k.mem (subSpaceToAddr sub) 3 k.sched.cr3
  heap : HeapIntact k.heap

section
variable {args : ProcessArgs} {k k' : Kernel} {T : Tables}

theorem allOrNothing_of_error {e : Fault} (h : initProcess args k = .error e) : ¬AllOrNothing args k := by
  rintro ⟨r, k', hcall, -⟩
  unfold createProcess at hcall
  rw [h] at hcall
  cases hcall

theorem allOrNothing_of_null (h : initProcess args k = .ok (none, k')) : AllOrNothing args k ↔ Unchanged k k' := by
  have hcall : createProcess args k = .ok (none, k') := by
    unfold createProcess
    rw [h]
    rfl
  constructor
  · rintro ⟨r, k'', hcall', hsame⟩
    rw [hcall] at hcall'
    cases hcall'
    exact hsame rfl
  · intro hsame
    exact ⟨none, k', hcall, fun _ => hsame⟩

/-- A thread that was made enters the queue behind its last entry. -/
theorem allOrNothing_of_made {pcb : Pcb} {p : TcbPtr} (h : initProcess args k = .ok (some pcb, k'))
    (hp : pcb.processThreads.tcb = some p) : AllOrNothing args k ↔ k'.sched.lastTcb ≠ none := by
  have hcall : createProcess args k =
      (schedulerAddThread p (k'.sched.setState p .ready)).map fun sched => (some pcb, { k' with sched }) := by
    unfold createProcess
    rw [h]
    dsimp only [bind, Except.bind]
    rw [hp]
    rfl
  have hlast : (k'.sched.setState p .ready).lastTcb = k'.sched.lastTcb := rfl
  unfold AllOrNothing
  rw [hcall]
  unfold schedulerAddThread
  rw [hlast]
  cases k'.sched.lastTcb with
  | none =>
    refine iff_of_false ?_ (fun h0 => h0 rfl)
    rintro ⟨r, k'', hcall', -⟩
    cases hcall'
  | some l =>
    refine iff_of_true ⟨_, _, rfl, ?_⟩ (Option.some_ne_none l)
    intro h0
    cases h0

/-- Memory for no thread that takes a frame does not leave the map as it was. -/
theorem mmap_wasted {k₀ k₁ k₂ k₃ : Kernel} {code mapping stack : Nat} (hok : memMapSource.Ok k₀.mmap)
    (h₁ : Wasted code k₀ k₁) (h₂ : Wasted mapping k₁ k₂) (h₃ : Wasted stack k₂ k₃) :
    k₃.mmap = k₀.mmap ↔ 510 < code ∧ 510 < mapping ∧ 510 < stack := by
  obtain ⟨hok₁, hle₁, hlost₁⟩ := h₁.free hok
  obtain ⟨hok₂, hle₂, hlost₂⟩ := h₂.free hok₁
  obtain ⟨-, hle₃, hlost₃⟩ := h₃.free hok₂
  constructor
  · intro hsame
    rw [hsame] at hle₃ hlost₃
    refine ⟨?_, ?_, ?_⟩
    · by_contra hfew
      obtain ⟨f, hf, hgone⟩ := hlost₁ (by omega)
      exact hgone (hle₂ (hle₃ hf))
    · by_contra hfew
      obtain ⟨f, hf, hgone⟩ := hlost₂ (by omega)
      exact hgone (hle₃ (hle₁ hf))
    · by_contra hfew
      obtain ⟨f, hf, hgone⟩ := hlost₃ (by omega)
      exact hgone (hle₁ (hle₂ hf))
  · rintro ⟨hcode, hmapping, hstack⟩
    cases h₁ with
    | lost n hfew => omega
    | refused =>
      cases h₂ with
      | lost n hfew => omega
      | refused =>
        cases h₃ with
        | lost n hfew => omega
        | refused => rfl

/-- `create_process` is all or nothing exactly when nothing fails (the heap and the frame map have everything that
is asked of them, and there is a queue to enter) or everything is refused at once: the reserved priority with more
pages in each sub-space than one list holds. -/
theorem create_process_all_or_nothing_iff (h : Intact k T) : AllOrNothing args k ↔
    args.priority.toNat ≠ uint16Max ∧ CanInit args k ∧ k.sched.lastTcb ≠ none ∨
      args.priority.toNat = uint16Max ∧ CanRefuse args k := by
  have hout := @initProcess_spec args k T h.wf h.apart h.root h.clear h.heap
  generalize hinit : initProcess args k = result at hout
  cases hout with
  | fault e hcan hrefuse =>
    refine iff_of_false (allOrNothing_of_error hinit) ?_
    rintro (⟨hprio, hboth, -⟩ | ⟨hprio, hboth⟩)
    · exact hcan hprio h.placed h.top hboth
    · exact hrefuse hprio hboth
  | @refused sp heap heap' k₁ k₂ k₃ hprio hblock hfree h₁ h₂ h₃ =>
    have hok : memMapSource.Ok (withSupplyBlock k sp heap).mmap := h.apart.ok
    have hwasted := mmap_wasted hok h₁ h₂ h₃
    have hsched : k₃.sched = k.sched := by rw [h₃.rest, h₂.rest, h₁.rest]; rfl
    rw [allOrNothing_of_null hinit]
    constructor
    · -- the frames are all back only if no region was fed
      intro hsame
      obtain ⟨hcode, hmapping, hstack⟩ := hwasted.1 hsame.mmap
      refine .inr ⟨hprio, ?_, sp, heap, heap', hblock, hfree⟩
      rintro (_ | _ | _)
      · exact hcode
      · exact hmapping
      · exact hstack
    · rintro (⟨hother, -⟩ | ⟨-, hmany, -⟩)
      · exact absurd hprio hother
      · refine ⟨hwasted.2 ⟨hmany .code, hmany .mapping, hmany .stack⟩, .refl _, ?_, ?_, ?_, ?_, ?_⟩
        all_goals simp only [hsched, implies_true]
  | failed hprio _ hcan _ _ hheap =>
    rw [allOrNothing_of_null hinit]
    refine iff_of_false ?_ ?_
    · -- three blocks stay in use
      intro hsame
      have hlength := hsame.blocks.length_eq
      rw [hheap] at hlength
      simp only [List.length_cons] at hlength
      omega
    · rintro (⟨-, hboth, -⟩ | ⟨hother, -⟩)
      · exact hcan h.placed h.top hboth
      · exact hprio hother
  | made hprio hspawned hcan _ hp _ =>
    -- a thread that was made is put behind the last one, if there is one
    have hlast := congrArg Sched.lastTcb hspawned.sched
    rw [allOrNothing_of_made hinit hp]
    dsimp only
    rw [show _ = k.sched.lastTcb from hlast]
    constructor
    · intro hqueue
      exact .inl ⟨hprio, hcan h.placed h.top, hqueue⟩
    · rintro (⟨-, -, hqueue⟩ | ⟨hother, -⟩)
      · exact hqueue
      · exact absurd hother hprio

end

/-! ## Failures -/

theorem newKernel_intact : Intact newKernel rootOnly := by
  refine ⟨rootOnly_wf, newKernel_apart, ?_, rfl, rfl, newKernel_clear, cutHeap_intact⟩
  intro f i l _ _ hp
  rw [show entryAt newKernel.mem f i = 0 from entryAt_zero f i] at hp
  cases hp

theorem create_process_all_or_nothing_iff_newKernel :
    AllOrNothing { processArgs 1 1 1 with priority := 65535 } newKernel ↔
      (65535 : BitVec 16).toNat ≠ uint16Max ∧ CanInit { processArgs 1 1 1 with priority := 65535 } newKernel ∧
        newKernel.sched.lastTcb ≠ none ∨
      (65535 : BitVec 16).toNat = uint16Max ∧ CanRefuse { processArgs 1 1 1 with priority := 65535 } newKernel :=
  create_process_all_or_nothing_iff newKernel_intact

/-- More pages than a list holds: `NULL`, but the thread keeps its root and three blocks stay in use. -/
theorem create_process_leaks : ¬AllOrNothing (processArgs 511 511 511) newKernel := by
  have hleaks : okAnd (createProcess (processArgs 511 511 511) newKernel) (fun x =>
      x.1.isNone && decide (x.2.heap.live.length = 3)) = true := by decide +kernel
  obtain ⟨⟨r, k'⟩, hcall, hlive⟩ := okAnd_eq_true.1 hleaks
  obtain ⟨hnone, hlength⟩ := Bool.and_eq_true_iff.1 hlive
  rintro ⟨r', k'', hcall', hsame⟩
  rw [hcall] at hcall'
  cases hcall'
  have hperm := (hsame (Option.isNone_iff_eq_none.1 hnone)).blocks.length_eq
  rw [of_decide_eq_true hlength] at hperm
  cases hperm

end Icarus.Processes
