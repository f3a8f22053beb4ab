/-
Where the stack of a new thread lies against its stack pointer: `create_thread` points it to the start of a sub-space
that is filled upwards.
-/
import Icarus.Memory.PageLoops
import Icarus.Processes.SupplyRuns

namespace Icarus.Processes

open Icarus.Base Icarus.Memory

/-- `registers.psp.rsp`. -/
def Tcb.rsp (t : Tcb) : Nat := (t.registers.load64 144).toNat

/-- The bytes directly below `rsp` are those of the supplied frames, in some order of the frames. -/
def StackUsable (m : Mem) (root rsp : Nat) (supplied : List SuppliedPage) : Prop :=
  ∃ frames : List Nat, frames.Perm (supplied.map (·.frame)) ∧
    ∀ i f, frames[i]? = some f → ∀ b < 4096, translateByte m root (rsp - 4096 * (i + 1) + b) = some (f + b)

theorem StackUsable.congr {m m' : Mem} {root root' rsp : Nat} {supplied : List SuppliedPage}
    (hsame : ∀ va, rsp - 4096 * supplied.length ≤ va → va < rsp → translateByte m' root' va = translateByte m root va)
    (hroom : 4096 * supplied.length ≤ rsp) (h : StackUsable m root rsp supplied) :
    StackUsable m' root' rsp supplied := by
  obtain ⟨frames, hperm, hbytes⟩ := h
  have hlen : frames.length = supplied.length := hperm.length_eq.trans (List.length_map _)
  refine ⟨frames, hperm, fun i f hi b hb => ?_⟩
  have hlt : i < supplied.length := hlen ▸ (List.getElem?_eq_some_iff.1 hi).1
  rw [hsame _ (by omega) (by omega)]
  exact hbytes i f hi b hb

/-! ## Below the stack -/

section
variable {p : TcbPtr} {t₀ : Tcb} {m₀ : Mem} {log : SupplyLog} {map : PageMap} {T : Tables} {k : Kernel}

/-- No page of the log lies directly below the stack, if the mappings do not. -/
theorem SupplyInv.below (h : SupplyInv p t₀ m₀ log map T k) {va : Nat}
    (hmapping : pageVirtAddr .mapping (log .mapping).length ≤ va) (hva : va < threadStackVirtAddr) :
    map (pageOf va) = none := by
  by_contra hne
  obtain ⟨c, hc⟩ := Option.ne_none_iff_exists'.1 hne
  obtain ⟨sub, i, hi, he⟩ := h.only _ _ hc
  have hroom := h.room_of_lt hi.le
  rw [pageOf_pageVirtAddr hroom] at he
  unfold pageOf vaPrefix at he
  unfold pageVirtAddr at hmapping hroom
  cases sub <;> simp only [subSpaceToAddr, subSpaceEnd, threadCodeVirtAddr, threadMappingsVirtAddr,
    threadStackVirtAddr] at hmapping hva hroom he <;> omega

/-- The bytes directly below the stack are what they were before the first page. -/
theorem SupplyInv.translateByte_below (h : SupplyInv p t₀ m₀ log map T k) {va : Nat}
    (hmapping : pageVirtAddr .mapping (log .mapping).length ≤ va) (hva : va < threadStackVirtAddr) :
    translateByte k.mem (k.sched.tcbs p).pageTable va = translateByte m₀ t₀.pageTable va := by
  unfold translateByte Memory.translate
  rw [h.grown]
  dsimp only
  rw [(h.calls.kept va (h.below hmapping hva)).frame]

end

theorem newTcb_rsp (tid : Nat) (isPrivileged : Bool) (priority : BitVec 16) (root : Nat) :
    (newTcb tid isPrivileged priority root).rsp = threadStackVirtAddr := by
  unfold Tcb.rsp newTcb startRegisters
  dsimp only
  rw [Mem.load64_store64_disjoint _ (by decide), Mem.load64_store64_disjoint _ (by decide), Mem.load64_store64_same]
  decide

section
variable {k k₀ k' : Kernel} {isPrivileged : Bool} {priority : BitVec 16} {p : TcbPtr} {log : SupplyLog} {T : Tables}

/-- What a new thread finds directly below its stack pointer after any supplies is what the table in CR3 had there. -/
theorem SupplyRun.below_stack (hT : Built memMapSource k.sched.cr3 T k.mem k.mmap)
    (hlarge : ∀ va, InLowerHalf va → NoLarger 0 k.mem 4 k.sched.cr3 va)
    (hcreate : createThread isPrivileged priority k = .ok (some p, k₀)) (hrun : SupplyRun p k₀ log k') :
    (k₀.sched.tcbs p).rsp = threadStackVirtAddr ∧
      ∀ va, pageVirtAddr .mapping (log .mapping).length ≤ va → va < threadStackVirtAddr →
        translateByte k'.mem (k'.sched.tcbs p).pageTable va = translateByte k.mem k.sched.cr3 va := by
  obtain ⟨addr, root, hc⟩ := created_of_some hT.apart.ok hcreate
  obtain ⟨map', T', hinv⟩ := hrun.created hc hT hlarge
  refine ⟨?_, fun va hlo hhi => ?_⟩
  · rw [hc.sched, Sched.tcbs_modify_self, newTcb_rsp]
  · rw [hinv.translateByte_below hlo hhi]
    unfold translateByte Memory.translate
    rw [show (newTcb k.tidGen isPrivileged priority root).pageTable = root from rfl, hc.mmuWalk_eq hT]

/-- The stack a thread was supplied with is usable from the first instruction on only where the table in CR3 had mapped
its frames below the stack before the thread was made: no supply maps a page there. -/
theorem stack_usable_iff (hT : Built memMapSource k.sched.cr3 T k.mem k.mmap)
    (hlarge : ∀ va, InLowerHalf va → NoLarger 0 k.mem 4 k.sched.cr3 va)
    (hcreate : createThread isPrivileged priority k = .ok (some p, k₀)) (hrun : SupplyRun p k₀ log k')
    (hmapping : pageVirtAddr .mapping (log .mapping).length + 4096 * (log .stack).length ≤ threadStackVirtAddr) :
    StackUsable k'.mem (k'.sched.tcbs p).pageTable (k₀.sched.tcbs p).rsp (log .stack) ↔
      StackUsable k.mem k.sched.cr3 threadStackVirtAddr (log .stack) := by
  obtain ⟨hrsp, hbelow⟩ := hrun.below_stack hT hlarge hcreate
  rw [hrsp]
  have hsame : ∀ va, threadStackVirtAddr - 4096 * (log .stack).length ≤ va → va < threadStackVirtAddr →
      translateByte k'.mem (k'.sched.tcbs p).pageTable va = translateByte k.mem k.sched.cr3 va :=
    fun va hlo hhi => hbelow va (by omega) hhi
  constructor
  · exact StackUsable.congr (fun va hlo hhi => (hsame va hlo hhi).symm) (by omega)
  · exact StackUsable.congr hsame (by omega)

end

/-- One page of stack for a thread of the kernel, as the statement has it. -/
theorem stack_usable_onePage : ∃ p k₀ log k', createThread false 1 freshKernel = .ok (some p, k₀) ∧
    SupplyRun p k₀ log k' ∧ (log .stack).length = 1 ∧
    (StackUsable k'.mem (k'.sched.tcbs p).pageTable (k₀.sched.tcbs p).rsp (log .stack) ↔
      StackUsable freshKernel.mem freshKernel.sched.cr3 threadStackVirtAddr (log .stack)) := by
  obtain ⟨p, k₀, added, k', hcreate, hlen, hrun⟩ := freshKernel_region .stack 1 (by decide +kernel) (by decide)
  refine ⟨p, k₀, _, k', hcreate, hrun, ?_, stack_usable_iff freshKernel_built (fun va _ => freshKernel_noLarger va)
    hcreate hrun ?_⟩
  · rw [SupplyLog.add_self, List.nil_append]
    exact hlen
  · rw [SupplyLog.add_self, SupplyLog.add_of_ne _ (by decide), List.nil_append, hlen]
    decide

/-- The page lies above the stack pointer, and nothing lies below it. -/
theorem stack_unusable_onePage : ∃ p k₀ log k', createThread false 1 freshKernel = .ok (some p, k₀) ∧
    SupplyRun p k₀ log k' ∧ log .code = [] ∧ log .mapping = [] ∧ (log .stack).length = 1 ∧
    ¬StackUsable k'.mem (k'.sched.tcbs p).pageTable (k₀.sched.tcbs p).rsp (log .stack) := by
  obtain ⟨p, k₀, added, k', hcreate, hlen, hrun⟩ := freshKernel_region .stack 1 (by decide +kernel) (by decide)
  refine ⟨p, k₀, _, k', hcreate, hrun, SupplyLog.add_of_ne _ (by decide) _, SupplyLog.add_of_ne _ (by decide) _, ?_, ?_⟩
  · rw [SupplyLog.add_self, List.nil_append]
    exact hlen
  · obtain ⟨hrsp, hbelow⟩ := hrun.below_stack freshKernel_built (fun va _ => freshKernel_noLarger va) hcreate
    rintro ⟨frames, hperm, hbytes⟩
    rw [SupplyLog.add_self, List.nil_append] at hperm
    have hpos : 0 < frames.length := by
      rw [hperm.length_eq, List.length_map, hlen]
      exact Nat.one_pos
    have hbyte := hbytes 0 _ (List.getElem?_eq_getElem hpos) 0 (by decide)
    have hnone : translateByte freshKernel.mem freshKernel.sched.cr3 (threadStackVirtAddr - 4096 * (0 + 1) + 0) = none := by
      have hwalk : ∀ va, mmuWalk freshKernel.mem 4 freshKernel.sched.cr3 va = none := fun va =>
        mmuWalk_zeroed (fun _ _ => entryAt_zero ..) va
      unfold translateByte Memory.translate
      rw [hwalk]
      rfl
    rw [hrsp, hbelow _ (by rw [SupplyLog.add_of_ne _ (by decide)]; decide) (by decide), hnone] at hbyte
    cases hbyte

end Icarus.Processes
