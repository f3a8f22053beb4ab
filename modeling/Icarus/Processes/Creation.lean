/-
Making a thread: the block for it, the frame of its root table, which is a copy of the one CR3 holds, and
the control block.
-/
import Icarus.Memory.Ways
import Icarus.Memory.FrameLists
import Icarus.Processes.Thread

namespace Icarus.Processes

open Icarus.Base Icarus.Memory

/-! ## A copied root -/

section
variable {T : Tables} {m m' : Mem} {c r l pre : Nat}

/-- Filling a frame that is no table writes no table. -/
theorem entryAt_of_frame (h : T.WF m) (hnew : T.level c = 0) (hframe : ∀ a, a / 4096 * 4096 ≠ c → m' a = m a) {g j : Nat}
    (hg : T.level g ≠ 0) (hj : j < 512) : entryAt m' g j = entryAt m g j := by
  have hga := h.aligned g hg
  refine Mem.load_congr fun x h1 h2 => hframe x ?_
  rintro rfl
  rw [show x / 4096 * 4096 = g by omega] at hnew
  exact hg hnew

theorem Tables.level_insert_of_ne {g : Nat} (hg : g ≠ c) : (T.insert c l pre).level g = T.level g :=
  Function.update_of_ne hg ..

theorem Tables.level_insert_self : (T.insert c l pre).level c = l := Function.update_self ..

/-- An entry of a copied table, or of one that was there, is an entry of a table that was there. -/
theorem copied_entry (h : T.WF m) (hnew : T.level c = 0) (hr : T.level r = l)
    (hframe : ∀ a, a / 4096 * 4096 ≠ c → m' a = m a) (hcopy : ∀ j, j < 512 → entryAt m' c j = entryAt m r j) {g j : Nat}
    (hg : (T.insert c l pre).level g ≠ 0) (hj : j < 512) :
    ∃ g', T.level g' = (T.insert c l pre).level g ∧ entryAt m' g j = entryAt m g' j ∧ g' = if g = c then r else g := by
  by_cases hgc : g = c
  · subst hgc
    exact ⟨r, by rw [hr, Tables.level_insert_self], hcopy j hj, (if_pos rfl).symm⟩
  · rw [Tables.level_insert_of_ne hgc] at hg ⊢
    exact ⟨g, rfl, entryAt_of_frame h hnew hframe hg hj, (if_neg hgc).symm⟩

/-- A frame that is filled with the entries of a table becomes a table of its level. -/
theorem copied_wf (h : T.WF m) (hc : c % 4096 = 0) (hnew : T.level c = 0) (hr : T.level r = l)
    (hframe : ∀ a, a / 4096 * 4096 ≠ c → m' a = m a) (hcopy : ∀ j, j < 512 → entryAt m' c j = entryAt m r j) :
    (T.insert c l pre).WF m' := by
  refine ⟨?_, ?_, ?_⟩
  · intro g hg
    by_cases hgc : g = c
    · rwa [hgc]
    · rw [Tables.level_insert_of_ne hgc] at hg
      exact h.aligned g hg
  · intro g j hg hj
    obtain ⟨g', hlevel, hentry, -⟩ := copied_entry h hnew hr hframe hcopy hg hj
    rw [hentry]
    exact h.reserved g' j (by omega) hj
  · intro g j k hg hj hp he
    have hg0 : (T.insert c l pre).level g ≠ 0 := by omega
    obtain ⟨g', hlevel, hentry, -⟩ := copied_entry h hnew hr hframe hcopy hg0 hj
    rw [hentry] at hp he ⊢
    obtain ⟨h1, h2⟩ := h.child g' j k (hlevel.trans hg) hj hp he
    refine ⟨?_, h2⟩
    rw [Tables.level_insert_of_ne]
    · exact h1
    · rintro hcc
      rw [hcc] at h1
      omega

/-- It hangs where the table hangs. -/
theorem copied_placed (h : T.WF m) (hnew : T.level c = 0) (hr : T.level r = l)
    (hframe : ∀ a, a / 4096 * 4096 ≠ c → m' a = m a) (hcopy : ∀ j, j < 512 → entryAt m' c j = entryAt m r j)
    (hpl : T.Placed m) : (T.insert c l (T.pre r)).Placed m' := by
  intro g j k hg hj hp he
  have hg0 : (T.insert c l (T.pre r)).level g ≠ 0 := by omega
  obtain ⟨g', hlevel, hentry, hg'⟩ := copied_entry h hnew hr hframe hcopy hg0 hj
  rw [hentry] at hp he ⊢
  have hchild := (h.child g' j k (hlevel.trans hg) hj hp he).1
  have hpre : (T.insert c l (T.pre r)).pre g = T.pre g' := by
    rw [hg']
    by_cases hgc : g = c
    · rw [hgc, if_pos rfl]
      exact Function.update_self ..
    · rw [if_neg hgc]
      exact Function.update_of_ne hgc ..
  rw [hpre, ← hpl g' j k (hlevel.trans hg) hj hp he]
  refine Function.update_of_ne ?_ ..
  rintro hcc
  rw [hcc] at hchild
  omega

/-- The ways of its addresses are those of the table. -/
theorem copied_way (h : T.WF m) (hnew : T.level c = 0) (hr : T.level r = l + 1)
    (hframe : ∀ a, a / 4096 * 4096 ≠ c → m' a = m a) (hcopy : ∀ j, j < 512 → entryAt m' c j = entryAt m r j) {va : Nat}
    (hclear : Clear m va l r) : Clear m' va l c ∧ missing m' va l c = missing m va l r := by
  cases l with
  | zero => exact ⟨trivial, rfl⟩
  | succ l =>
    have hi := vaIndex_lt va (l + 1)
    refine way_of_entry (hcopy _ hi) hclear fun hp => ?_
    exact way_congr h (fun g j h1 _ hj => entryAt_of_frame h hnew hframe (by omega) hj)
      (h.child_frame hr hi hp hclear.1).1 (hclear.2 hp)

end

/-! ## The heap -/

/-- The heap serves requests of these sizes one after the other. -/
def HeapServes : List Nat → Heap → Prop
  | [], _ => True
  | size :: sizes, heap =>
    ∃ addr heap', imallocAlocator (heap.limit + 1) heap size = .ok (some (addr, heap')) ∧ HeapServes sizes heap'

theorem heapServes_cons {size addr : Nat} {sizes : List Nat} {heap heap' : Heap}
    (h : imallocAlocator (heap.limit + 1) heap size = .ok (some (addr, heap'))) :
    HeapServes (size :: sizes) heap ↔ HeapServes sizes heap' := by
  constructor
  · rintro ⟨addr', heap'', h', hrest⟩
    rw [h] at h'
    cases h'
    exact hrest
  · intro hrest
    exact ⟨addr, heap', h, hrest⟩

section
variable {k k' : Kernel} {size addr : Nat}

/-- `Imalloc` returns when a block serves, and changes the heap only. -/
theorem imalloc_eq_ok : imalloc size k = .ok (addr, k') ↔
    ∃ heap, imallocAlocator (k.heap.heap.limit + 1) k.heap.heap size = .ok (some (addr, heap)) ∧
      k' = { k with heap := ⟨heap, (addr, size) :: k.heap.live⟩ } := by
  constructor
  · intro h
    unfold imalloc at h
    obtain ⟨r, hr, h⟩ := bind_eq_ok.1 h
    rcases r with _ | ⟨p, heap⟩
    · obtain ⟨⟨info, m, mmap⟩, -, h⟩ := bind_eq_ok.1 h
      cases info <;> cases h
    · cases h
      exact ⟨heap, hr, rfl⟩
  · rintro ⟨heap, hr, rfl⟩
    exact bind_eq_ok.2 ⟨_, hr, rfl⟩

/-- A fault of `Imalloc` means that no block serves. -/
theorem imalloc_error {e : Fault} (h : imalloc size k = .error e) (sizes : List Nat) :
    ¬HeapServes (size :: sizes) k.heap.heap := by
  rintro ⟨addr, heap, hr, -⟩
  rw [imalloc_eq_ok.2 ⟨heap, hr, rfl⟩] at h
  cases h

end

/-! ## `create_thread` -/

/-- The control block `create_thread` writes. -/
def newTcb (tid : Nat) (isPrivileged : Bool) (priority : BitVec 16) (root : Nat) : Tcb :=
  { Tcb.zero with
    tid
    registers := startRegisters isPrivileged
    pageTable := root
    privileged := isPrivileged
    priority := priority.toNat
    activePriority := priority.toNat }

/-- The thread gets a block of the heap and one frame, filled with what the table in CR3 holds. -/
structure Created (isPrivileged : Bool) (priority : BitVec 16) (k k' : Kernel) (addr : Nat) (p : TcbPtr) (root : Nat) :
    Prop where
  accepted : priority.toNat ≠ uint16Max
  block : ∃ heap, imallocAlocator (k.heap.heap.limit + 1) k.heap.heap tcbSize = .ok (some (addr, heap)) ∧
    k'.heap = ⟨heap, (addr, tcbSize) :: k.heap.live⟩
  ptr : tcbAtAddr addr = .ok p
  alloc : memMapSource.alloc k.mmap = (root, k'.mmap)
  given : root ≠ frameAllocFailed
  sched : k'.sched = k.sched.modify p fun _ => newTcb k.tidGen isPrivileged priority root
  mem : ∀ a, a / 4096 * 4096 ≠ root → k'.mem a = k.mem a
  copy : ∀ j, j < 512 → k.sched.cr3 % 4096 = 0 → k.sched.cr3 ≠ root →
    entryAt k'.mem root j = entryAt k.mem k.sched.cr3 j

section
variable {k k' k₁ : Kernel} {isPrivileged : Bool} {priority : BitVec 16} {addr root : Nat} {p : TcbPtr}

/-- The frame of the root was free, and is not any more. -/
theorem Created.frame (h : Created isPrivileged priority k k' addr p root) (hok : memMapSource.Ok k.mmap) :
    root ∈ k.mmap.free ∧ root ∉ k'.mmap.free := by
  have halloc := h.alloc
  rcases memMapSource.fresh k.mmap hok with hf | hfresh
  · rw [halloc] at hf
    exact absurd hf h.given
  · rwa [halloc] at hfresh

theorem Created.free (h : Created isPrivileged priority k k' addr p root) (hok : memMapSource.Ok k.mmap) :
    k'.mmap.free ⊆ k.mmap.free := by
  have hshrinks := memMapSource.shrinks k.mmap hok
  rwa [h.alloc] at hshrinks

theorem Created.ok (h : Created isPrivileged priority k k' addr p root) (hok : memMapSource.Ok k.mmap) :
    memMapSource.Ok k'.mmap := by
  have hok' := memMapSource.ok k.mmap hok
  rwa [h.alloc] at hok'

/-- The new root among the tables. -/
theorem Created.tables {T : Tables} (h : Created isPrivileged priority k k' addr p root) (hwf : T.WF k.mem)
    (hs : T.Apart memMapSource k.mmap) (hcr3 : T.level k.sched.cr3 = 4) :
    T.level root = 0 ∧ (∀ j, j < 512 → entryAt k'.mem root j = entryAt k.mem k.sched.cr3 j) ∧
      (T.insert root 4 (T.pre k.sched.cr3)).WF k'.mem ∧
        (T.insert root 4 (T.pre k.sched.cr3)).Apart memMapSource k'.mmap := by
  have hframe := h.frame hs.ok
  have hnew := hs.free root hframe.1
  have hcopy : ∀ j, j < 512 → entryAt k'.mem root j = entryAt k.mem k.sched.cr3 j := by
    intro j hj
    refine h.copy j hj (hwf.aligned _ (by omega)) ?_
    intro he
    rw [he] at hcr3
    omega
  refine ⟨hnew, hcopy, copied_wf hwf (memMapSource.aligned _ _ hs.ok hframe.1) hnew hcr3 h.mem hcopy, h.ok hs.ok, ?_⟩
  intro f hf
  rw [Tables.level_insert_of_ne]
  · exact hs.free f (h.free hs.ok hf)
  · rintro rfl
    exact hframe.2 hf

/-- With a priority that is accepted and a block for it, a thread is made, or there is no frame for its root. -/
theorem createThread_spec (hok : memMapSource.Ok k.mmap) (hprio : priority.toNat ≠ uint16Max)
    (hblock : imalloc tcbSize k = .ok (addr, k₁)) (hptr : tcbAtAddr addr = .ok p) :
    (∃ root k', createThread isPrivileged priority k = .ok (some p, k') ∧
        Created isPrivileged priority k k' addr p root) ∨
      (memMapSource.alloc k.mmap).1 = frameAllocFailed ∧ ∃ e, createThread isPrivileged priority k = .error e := by
  obtain ⟨heap, hheap, rfl⟩ := imalloc_eq_ok.1 hblock
  unfold createThread
  rw [if_neg hprio, hblock]
  dsimp only [bind, Except.bind]
  rw [hptr]
  dsimp only
  have htype : pageTypeToSize 0 = defaultPageSize := rfl
  rcases @iallocFrames_spec _ k.mem k.mmap htype hok 1 with ⟨r, m, mmap, he, hlisting⟩ | ⟨-, hfail, he⟩
  · left
    rw [he]
    cases hlisting with
    | refused hmany => omega
    | missing _ hlisted hserves =>
      refine absurd ⟨?_, trivial⟩ hserves
      rw [hlisted.first.1]
      exact hlisted.first.2
    | @listed info _ _ _ hlisted _ hafter =>
      have haligned := memMapSource.aligned _ _ hok (hlisted.mem_free hok).1
      refine ⟨info, _, rfl, hprio, ⟨heap, hheap, rfl⟩, hptr, ?_, hlisted.first.2, rfl, ?_, ?_⟩
      · rw [hafter]
        exact Prod.ext hlisted.first.1 rfl
      · intro a ha
        have houter : m.copy info m k.sched.cr3 defaultPageSize a = m a :=
          Mem.copy_of_lt (by unfold defaultPageSize; omega)
        exact houter.trans (hlisted.frame a ha)
      · intro j hj hcr3 hne
        have hcopied : entryAt (m.copy info m k.sched.cr3 defaultPageSize) info j = entryAt m k.sched.cr3 j :=
          Mem.load_copy_inside (by unfold defaultPageSize; omega)
        exact hcopied.trans (Mem.load_congr fun x h1 h2 => hlisted.frame x (by omega))
  · rw [he]
    exact .inr ⟨hfail, _, rfl⟩

theorem createThread_eq_ok {r : Option TcbPtr} (hok : memMapSource.Ok k.mmap)
    (h : createThread isPrivileged priority k = .ok (r, k')) :
    (r = none ∧ priority.toNat = uint16Max ∧ k' = k) ∨
      ∃ addr p root, r = some p ∧ Created isPrivileged priority k k' addr p root := by
  by_cases hprio : priority.toNat = uint16Max
  · unfold createThread at h
    rw [if_pos hprio] at h
    cases h
    exact .inl ⟨rfl, hprio, rfl⟩
  · right
    have hcall := h
    unfold createThread at hcall
    rw [if_neg hprio] at hcall
    obtain ⟨⟨addr, k₁⟩, hblock, hcall⟩ := bind_eq_ok.1 hcall
    obtain ⟨p, hptr, -⟩ := bind_eq_ok.1 hcall
    rcases @createThread_spec k k₁ isPrivileged priority addr p hok hprio hblock hptr with ⟨root, k₂, he, hc⟩ | ⟨-, e, he⟩
    · rw [h] at he
      cases he
      exact ⟨addr, p, root, rfl, hc⟩
    · rw [h] at he
      cases he

/-- A call that returns a thread has created it. -/
theorem created_of_some (hok : memMapSource.Ok k.mmap) (h : createThread isPrivileged priority k = .ok (some p, k')) :
    ∃ addr root, Created isPrivileged priority k k' addr p root := by
  rcases createThread_eq_ok hok h with ⟨hnone, -⟩ | ⟨addr, p', root, hp, hc⟩
  · cases hnone
  · cases hp
    exact ⟨addr, root, hc⟩

end

end Icarus.Processes
