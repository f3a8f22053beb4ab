/-
Runs of `thread_supply_mem_region`: the sizes a control block counts are the cursors at which the next pages are mapped,
so that every sub-space is mapped without a gap, page after page, to the frames in the order in which they came.
-/
import Icarus.Memory.PageCalls
import Icarus.Processes.Construction

namespace Icarus.Processes

open Icarus.Base Icarus.Memory

/-! ## Pages that were supplied -/

/-- Where a sub-space has to end: at the next one, and the stack at the end of the lower half. -/
def subSpaceEnd : AddrSubSpace → Nat
  | .code => threadMappingsVirtAddr
  | .mapping => threadStackVirtAddr
  | .stack => 2 ^ 47

/-- A page that was mapped for a thread. -/
structure SuppliedPage where
  frame : Nat
  permissions : Nat

/-- The pages mapped for a thread in each sub-space, in order. -/
abbrev SupplyLog : Type := AddrSubSpace → List SuppliedPage

/-- More pages for one sub-space. -/
def SupplyLog.add (log : SupplyLog) (sub : AddrSubSpace) (pages : List SuppliedPage) : SupplyLog :=
  Function.update log sub (log sub ++ pages)

/-- The virtual address of page `i` of a sub-space. -/
def pageVirtAddr (sub : AddrSubSpace) (i : Nat) : Nat := subSpaceToAddr sub + 4096 * i

/-- The pages for which `page_in` returns 0 in the loop of `thread_supply_mem_region` from page `i` on. -/
def mappedPages (p : TcbPtr) (subSpace : AddrSubSpace) (info permissions : Nat) :
    (fuel i : Nat) → Kernel → List SuppliedPage
  | 0, _, _ => []
  | fuel + 1, i, k =>
    if i < pageCount k.mem info then
      let t := k.sched.tcbs p
      let page : SuppliedPage := ⟨pageAddr k.mem info i, threadPerms t permissions⟩
      let (r, mem, mmap) := pageIn (iallocKframe · 1) t.pageTable (add64 (subSpaceToAddr subSpace) (t.memory subSpace))
        page.frame (pageSize k.mem info) page.permissions k.mem k.mmap
      let k := { k with mem, mmap }
      if r ≠ 0 then [] else
        page :: mappedPages p subSpace info permissions fuel (i + 1)
          { k with sched := k.sched.modify p (·.grow subSpace (pageSize k.mem info)) }
    else []

/-- The pages a call of `thread_supply_mem_region` maps. -/
def regionPages (p : TcbPtr) (subSpace : AddrSubSpace) (info permissions : Nat) (k : Kernel) : List SuppliedPage :=
  mappedPages p subSpace info permissions (pageCount k.mem info + 1) 0 k

/-- A `struct_page_t` of 4 KiB pages that lies neither in a table under the root nor in a free frame. -/
structure InfoPage (m : Mem) (mmap : MemMap) (root info : Nat) : Prop where
  size : pageSize m info = defaultPageSize
  frames : ∀ i < pageCount m info, pageAddr m info i % 4096 = 0 ∧ pageAddr m info i < 2 ^ 40
  apart : ∀ a, info ≤ a → a < info + 16 + 8 * pageCount m info →
    ¬LeadsTo m 4 root (a / 4096 * 4096) ∧ a / 4096 * 4096 ∉ mmap.free

/-- Calls of `thread_supply_mem_region` for the thread `p`, and of `ialloc_frames` in between, from `k₀` on, while every
sub-space stays smaller than its distance to the next one. -/
inductive SupplyRun (p : TcbPtr) (k₀ : Kernel) : SupplyLog → Kernel → Prop
  | start : SupplyRun p k₀ (fun _ => []) k₀
  | alloc {log : SupplyLog} {k : Kernel} {count pageType : Nat} {r : Option Nat} {mem : Mem} {mmap : MemMap} :
      SupplyRun p k₀ log k → pageTypeToSize pageType = defaultPageSize →
        iallocFrames count pageType k.mem k.mmap = .ok (r, mem, mmap) → SupplyRun p k₀ log { k with mem, mmap }
  | supply {log : SupplyLog} {k k' : Kernel} {sub : AddrSubSpace} {info permissions : Nat} {r : Int} :
      SupplyRun p k₀ log k → InfoPage k.mem k.mmap (k.sched.tcbs p).pageTable info →
        threadSupplyMemRegion (some p) sub info permissions k = .ok (r, k') →
          pageVirtAddr sub (log.add sub (regionPages p sub info permissions k) sub).length < subSpaceEnd sub →
            SupplyRun p k₀ (log.add sub (regionPages p sub info permissions k)) k'

/-! ## Addresses -/

theorem pageVirtAddr_mono (sub : AddrSubSpace) {i j : Nat} (h : i ≤ j) : pageVirtAddr sub i ≤ pageVirtAddr sub j := by
  unfold pageVirtAddr
  omega

theorem pageOf_pageVirtAddr {sub : AddrSubSpace} {i : Nat} (h : pageVirtAddr sub i < subSpaceEnd sub) :
    pageOf (pageVirtAddr sub i) = subSpaceToAddr sub / 4096 + i := by
  unfold pageOf vaPrefix
  unfold pageVirtAddr at h ⊢
  cases sub <;> simp only [subSpaceToAddr, subSpaceEnd, threadCodeVirtAddr, threadMappingsVirtAddr,
    threadStackVirtAddr] at h ⊢ <;> omega

/-- Different pages of the sub-spaces are different pages. -/
theorem pageOf_pageVirtAddr_inj {sub sub' : AddrSubSpace} {i j : Nat} (h : pageVirtAddr sub i < subSpaceEnd sub)
    (h' : pageVirtAddr sub' j < subSpaceEnd sub') (he : pageOf (pageVirtAddr sub i) = pageOf (pageVirtAddr sub' j)) :
    sub = sub' ∧ i = j := by
  rw [pageOf_pageVirtAddr h, pageOf_pageVirtAddr h'] at he
  unfold pageVirtAddr at h h'
  cases sub <;> cases sub' <;> simp only [subSpaceToAddr, subSpaceEnd, threadCodeVirtAddr, threadMappingsVirtAddr,
    threadStackVirtAddr] at h h' he <;> first | exact ⟨rfl, by omega⟩ | omega

/-- The part of the address space the sub-spaces lie in. -/
def InLowerHalf (va : Nat) : Prop := threadCodeVirtAddr ≤ va ∧ va < 2 ^ 47

theorem inLowerHalf_pageVirtAddr {sub : AddrSubSpace} {i : Nat} (h : pageVirtAddr sub i < subSpaceEnd sub) :
    InLowerHalf (pageVirtAddr sub i) := by
  unfold InLowerHalf
  unfold pageVirtAddr at h ⊢
  cases sub <;> simp only [subSpaceToAddr, subSpaceEnd, threadCodeVirtAddr, threadMappingsVirtAddr,
    threadStackVirtAddr] at h ⊢ <;> omega

/-! ## The invariant -/

/-- The call of `page_in` for a page of the log. -/
def SuppliedPage.call (page : SuppliedPage) (sub : AddrSubSpace) (i : Nat) : MapCall :=
  ⟨pageVirtAddr sub i, page.frame, page.permissions⟩

/-- The thread with the control block `t₀` at the start, when the memory was `m₀`, after the pages of `log`: they are
mapped in their order and nothing else is, and the control block counts them. -/
structure SupplyInv (p : TcbPtr) (t₀ : Tcb) (m₀ : Mem) (log : SupplyLog) (map : PageMap) (T : Tables) (k : Kernel) :
    Prop where
  calls : PageCalls memMapSource t₀.pageTable m₀ map T k.mem k.mmap
  grown : k.sched.tcbs p = { t₀ with memory := (k.sched.tcbs p).memory, memoryLimit := (k.sched.tcbs p).memoryLimit }
  sizes : ∀ sub, (k.sched.tcbs p).memory sub = 4096 * (log sub).length
  limit : (k.sched.tcbs p).memoryLimit =
    4096 * ((log .code).length + (log .mapping).length + (log .stack).length)
  room : ∀ sub, pageVirtAddr sub (log sub).length < subSpaceEnd sub
  logged : ∀ sub i page, (log sub)[i]? = some page → map (pageOf (pageVirtAddr sub i)) = some (page.call sub i)
  only : ∀ n c, map n = some c → ∃ sub i, i < (log sub).length ∧ n = pageOf (pageVirtAddr sub i)
  frames : ∀ sub, ∀ page ∈ log sub, page.frame % 4096 = 0 ∧ page.frame < 2 ^ 40

section
variable {p : TcbPtr} {t₀ : Tcb} {m₀ : Mem} {log : SupplyLog} {map : PageMap} {T : Tables} {k : Kernel}
variable {sub sub' : AddrSubSpace} {page : SuppliedPage} {i : Nat}

theorem SupplyLog.add_self (log : SupplyLog) (sub : AddrSubSpace) (pages : List SuppliedPage) :
    log.add sub pages sub = log sub ++ pages := Function.update_self ..

theorem SupplyLog.add_of_ne (log : SupplyLog) (h : sub' ≠ sub) (pages : List SuppliedPage) :
    log.add sub pages sub' = log sub' := Function.update_of_ne h ..

theorem SupplyLog.add_nil (log : SupplyLog) (sub : AddrSubSpace) : log.add sub [] = log := by
  unfold add
  rw [List.append_nil, Function.update_eq_self]

theorem SupplyLog.add_cons (log : SupplyLog) (sub : AddrSubSpace) (page : SuppliedPage) (pages : List SuppliedPage) :
    log.add sub (page :: pages) = (log.add sub [page]).add sub pages := by
  unfold add
  rw [Function.update_self, Function.update_idem, List.append_assoc]
  rfl

theorem SupplyLog.length_add : (log.add sub [page] sub').length = (log sub').length + if sub' = sub then 1 else 0 := by
  by_cases hs : sub' = sub
  · rw [hs, SupplyLog.add_self, if_pos rfl, List.length_append, List.length_singleton]
  · rw [SupplyLog.add_of_ne log hs, if_neg hs, Nat.add_zero]

/-- Behind the old pages of a sub-space there is the new one. -/
theorem SupplyLog.getElem?_add {page' : SuppliedPage} :
    (log.add sub [page] sub')[i]? = some page' ↔
      (log sub')[i]? = some page' ∨ sub' = sub ∧ i = (log sub).length ∧ page' = page := by
  by_cases hs : sub' = sub
  · rw [hs, SupplyLog.add_self, List.getElem?_append]
    split_ifs with hold
    · simp [Nat.ne_of_lt hold]
    · rw [List.getElem?_eq_none (Nat.not_lt.1 hold), List.getElem?_singleton]
      split_ifs with hfirst
      · simp [show i = (log sub).length by omega, eq_comm]
      · simp [show i ≠ (log sub).length by omega]
  · rw [SupplyLog.add_of_ne log hs]
    simp [hs]

theorem SupplyLog.mem_add {page' : SuppliedPage} :
    page' ∈ log.add sub [page] sub' ↔ page' ∈ log sub' ∨ sub' = sub ∧ page' = page := by
  by_cases hs : sub' = sub
  · rw [hs, SupplyLog.add_self, List.mem_append, List.mem_singleton]
    simp
  · rw [SupplyLog.add_of_ne log hs]
    simp [hs]

/-- Pages of the log lie below the cursors. -/
theorem SupplyInv.room_of_lt (h : SupplyInv p t₀ m₀ log map T k) (hi : i ≤ (log sub).length) :
    pageVirtAddr sub i < subSpaceEnd sub :=
  lt_of_le_of_lt (pageVirtAddr_mono sub hi) (h.room sub)

/-- The cursor of a sub-space. -/
theorem SupplyInv.cursor (h : SupplyInv p t₀ m₀ log map T k) (sub : AddrSubSpace) :
    add64 (subSpaceToAddr sub) ((k.sched.tcbs p).memory sub) = pageVirtAddr sub (log sub).length := by
  have hroom := h.room sub
  have hend : subSpaceEnd sub < 2 ^ 64 := by cases sub <;> decide
  rw [h.sizes]
  exact add64_of_lt (by unfold pageVirtAddr at hroom; omega)

/-- The sub-spaces stay small. -/
theorem SupplyInv.length_lt (h : SupplyInv p t₀ m₀ log map T k) (sub : AddrSubSpace) :
    4096 * (log sub).length < 2 ^ 48 := by
  have hroom := h.room sub
  have hend : subSpaceEnd sub < 2 ^ 48 := by cases sub <;> decide
  unfold pageVirtAddr at hroom
  omega

/-- The pages of the log lie apart. -/
theorem SupplyInv.pageOf_ne (h : SupplyInv p t₀ m₀ log map T k) (hi : i < (log sub').length) :
    pageOf (pageVirtAddr sub' i) ≠ pageOf (pageVirtAddr sub (log sub).length) := by
  intro he
  obtain ⟨rfl, rfl⟩ := pageOf_pageVirtAddr_inj (h.room_of_lt hi.le) (h.room sub) he
  exact lt_irrefl _ hi

/-- One more page behind the others. -/
theorem SupplyInv.add {m' : Mem} {mmap' : MemMap} {T' : Tables} (h : SupplyInv p t₀ m₀ log map T k)
    (hcalls : PageCalls memMapSource t₀.pageTable m₀ (Function.update map (pageOf (pageVirtAddr sub (log sub).length))
      (some (page.call sub (log sub).length))) T' m' mmap')
    (hpage : page.frame % 4096 = 0 ∧ page.frame < 2 ^ 40)
    (hroom : pageVirtAddr sub ((log sub).length + 1) < subSpaceEnd sub) :
    SupplyInv p t₀ m₀ (log.add sub [page])
      (Function.update map (pageOf (pageVirtAddr sub (log sub).length)) (some (page.call sub (log sub).length))) T'
      { k with mem := m', mmap := mmap', sched := k.sched.modify p (·.grow sub defaultPageSize) } := by
  have htcb : (k.sched.modify p (·.grow sub defaultPageSize)).tcbs p = (k.sched.tcbs p).grow sub defaultPageSize :=
    Sched.tcbs_modify_self ..
  refine ⟨hcalls, ?_, fun sub' => ?_, ?_, fun sub' => ?_, fun sub' i page' hi => ?_, fun n c hn => ?_,
    fun sub' page' hm => ?_⟩
  · obtain ⟨mem, limit, hgrown⟩ : ∃ mem limit, k.sched.tcbs p = { t₀ with memory := mem, memoryLimit := limit } :=
      ⟨_, _, h.grown⟩
    dsimp only
    rw [htcb, hgrown]
    rfl
  · -- the size of the sub-space has grown by a page, the others are what they were
    rw [htcb, SupplyLog.length_add]
    show Function.update _ sub _ sub' = _
    by_cases hs : sub' = sub
    · rw [hs, Function.update_self, h.sizes, if_pos rfl]
      have hsmall := h.length_lt sub
      exact add64_of_lt (show 4096 * (log sub).length + 4096 < 2 ^ 64 by omega)
    · rw [Function.update_of_ne hs, h.sizes, if_neg hs]
      rfl
  · rw [htcb, SupplyLog.length_add, SupplyLog.length_add, SupplyLog.length_add]
    show add64 (k.sched.tcbs p).memoryLimit 4096 = _
    have h1 := h.length_lt .code
    have h2 := h.length_lt .mapping
    have h3 := h.length_lt .stack
    rw [h.limit, add64_of_lt (by omega)]
    cases sub <;> simp only [reduceCtorEq, reduceIte] <;> omega
  · rw [SupplyLog.length_add]
    by_cases hs : sub' = sub
    · rw [hs, if_pos rfl]
      exact hroom
    · rw [if_neg hs]
      exact h.room sub'
  · rcases SupplyLog.getElem?_add.1 hi with hold | ⟨rfl, rfl, rfl⟩
    · rw [Function.update_of_ne (h.pageOf_ne (List.getElem?_eq_some_iff.1 hold).1)]
      exact h.logged sub' i page' hold
    · exact Function.update_self ..
  · by_cases hnew : n = pageOf (pageVirtAddr sub (log sub).length)
    · exact ⟨sub, (log sub).length, by rw [SupplyLog.length_add, if_pos rfl]; exact Nat.lt_succ_self _, hnew⟩
    · rw [Function.update_of_ne hnew] at hn
      obtain ⟨sub', i, hi, he⟩ := h.only n c hn
      exact ⟨sub', i, by rw [SupplyLog.length_add]; omega, he⟩
  · rcases SupplyLog.mem_add.1 hm with hold | ⟨-, rfl⟩
    · exact h.frames sub' page' hold
    · exact hpage

end

/-! ## The loop -/

/-- The list at `info`, of 4 KiB frames, lies in frames that are no tables and not free. -/
structure SparedList (T : Tables) (m : Mem) (mmap : MemMap) (info count : Nat) : Prop where
  list : ListOf m info count
  frames : ∀ i < count, pageAddr m info i % 4096 = 0 ∧ pageAddr m info i < 2 ^ 40
  spared : ∀ a, info ≤ a → a < info + 16 + 8 * count → T.level (a / 4096 * 4096) = 0 ∧ a / 4096 * 4096 ∉ mmap.free

section
variable {T T' : Tables} {m m' : Mem} {mmap mmap' : MemMap} {info count root : Nat}

theorem InfoPage.spared (h : InfoPage m mmap root info) (T : Tables) :
    SparedList (T.under m root) m mmap info (pageCount m info) :=
  ⟨⟨rfl, h.size⟩, h.frames, fun a h1 h2 => ⟨Tables.under_level_of_not (h.apart a h1 h2).1, (h.apart a h1 h2).2⟩⟩

theorem SparedList.step (h : SparedList T m mmap info count) (hs : Spares memMapSource T m mmap T' m' mmap') :
    SparedList T' m' mmap' info count ∧ ∀ i < count, pageAddr m' info i = pageAddr m info i := by
  have hbyte : ∀ a, info ≤ a → a < info + 16 + 8 * count → m' a = m a := by
    intro a h1 h2
    obtain ⟨hlevel, hfree⟩ := h.spared a h1 h2
    exact (hs _ hlevel hfree).2.2 a rfl
  have haddr : ∀ i, i < count → pageAddr m' info i = pageAddr m info i := by
    intro i hi
    refine congrArg BitVec.toNat (Mem.load_congr fun x h1 h2 => hbyte x ?_ ?_)
    · omega
    · omega
  refine ⟨⟨⟨?_, ?_⟩, fun i hi => ?_, fun a h1 h2 => ?_⟩, haddr⟩
  · rw [← h.list.count]
    refine congrArg BitVec.toNat (Mem.load_congr fun x h1 h2 => hbyte x ?_ ?_)
    · omega
    · omega
  · rw [← h.list.size]
    refine congrArg BitVec.toNat (Mem.load_congr fun x h1 h2 => hbyte x ?_ ?_)
    · omega
    · omega
  · rw [haddr i hi]
    exact h.frames i hi
  · obtain ⟨hlevel, hfree⟩ := h.spared a h1 h2
    obtain ⟨hlevel', hfree', -⟩ := hs _ hlevel hfree
    exact ⟨hlevel', hfree'⟩

end

section
variable {p : TcbPtr} {t₀ : Tcb} {m₀ : Mem} {log : SupplyLog} {map : PageMap} {T : Tables} {k : Kernel}
variable {sub : AddrSubSpace} {info permissions count : Nat}

theorem SupplyInv.threadPerms_eq (h : SupplyInv p t₀ m₀ log map T k) (permissions : Nat) :
    threadPerms (k.sched.tcbs p) permissions = threadPerms t₀ permissions := by
  unfold threadPerms
  rw [h.grown]

/-- One round of the loop, and the page it adds to the log. -/
theorem SupplyInv.round {i : Nat} (h : SupplyInv p t₀ m₀ log map T k) (sub : AddrSubSpace)
    (hlist : SparedList T k.mem k.mmap info count) (hi : i < count)
    (hlarge : ∀ va, InLowerHalf va → NoLarger 0 m₀ 4 t₀.pageTable va) (permissions fuel : Nat) :
    ∃ m' mmap' T', SparedList T' m' mmap' info count ∧ (∀ j < count, pageAddr m' info j = pageAddr k.mem info j) ∧
      (supplyLoop (some p) sub info permissions (fuel + 1) i k = .ok (-1, { k with mem := m', mmap := mmap' }) ∧
          mappedPages p sub info permissions (fuel + 1) i k = [] ∧
          SupplyInv p t₀ m₀ log map T' { k with mem := m', mmap := mmap' } ∨
        ∃ page : SuppliedPage, ∃ k' map', page = ⟨pageAddr k.mem info i, threadPerms t₀ permissions⟩ ∧
          supplyLoop (some p) sub info permissions (fuel + 1) i k = supplyLoop (some p) sub info permissions fuel (i + 1) k' ∧
          mappedPages p sub info permissions (fuel + 1) i k =
            page :: mappedPages p sub info permissions fuel (i + 1) k' ∧ k'.mem = m' ∧ k'.mmap = mmap' ∧
          (pageVirtAddr sub ((log sub).length + 1) < subSpaceEnd sub →
            SupplyInv p t₀ m₀ (log.add sub [page]) map' T' k')) := by
  let page : SuppliedPage := ⟨pageAddr k.mem info i, threadPerms t₀ permissions⟩
  have hva := h.cursor sub
  have htable : (k.sched.tcbs p).pageTable = t₀.pageTable := by rw [h.grown]
  obtain ⟨r, m', mmap', T', hpage, hspares, hcalls⟩ := h.calls.page (page.call sub (log sub).length)
    (hlarge _ (inLowerHalf_pageVirtAddr (h.room sub)))
  have hpage' : pageIn (iallocKframe · 1) t₀.pageTable (pageVirtAddr sub (log sub).length) (pageAddr k.mem info i)
      defaultPageSize (threadPerms t₀ permissions) k.mem k.mmap = (r, m', mmap') := hpage
  obtain ⟨hlist', haddr⟩ := hlist.step hspares
  refine ⟨m', mmap', T', hlist', haddr, ?_⟩
  have hloop : ∀ fuel, supplyLoop (some p) sub info permissions (fuel + 1) i k =
      if r ≠ 0 then .ok (-1, { k with mem := m', mmap := mmap' }) else
        supplyLoop (some p) sub info permissions fuel (i + 1) { k with
          mem := m'
          mmap := mmap'
          sched := k.sched.modify p (·.grow sub (pageSize m' info)) } := by
    intro fuel
    rw [supplyLoop, hlist.list.count, if_pos hi, hlist.list.size]
    dsimp only [deref, bind, Except.bind]
    rw [htable, hva, h.threadPerms_eq, hpage']
    rfl
  have hmapped : ∀ fuel, mappedPages p sub info permissions (fuel + 1) i k =
      if r ≠ 0 then [] else page :: mappedPages p sub info permissions fuel (i + 1) { k with
          mem := m'
          mmap := mmap'
          sched := k.sched.modify p (·.grow sub (pageSize m' info)) } := by
    intro fuel
    rw [mappedPages, hlist.list.count, if_pos hi, hlist.list.size]
    dsimp only
    rw [htable, hva, h.threadPerms_eq, hpage']
  -- the round ends the loop, or it has mapped the page and moved the cursor
  rw [hloop, hmapped, hlist'.list.size]
  rcases hcalls with ⟨rfl, hcalls⟩ | ⟨rfl, hcalls⟩
  · exact .inl ⟨if_pos (by decide), if_pos (by decide), hcalls, h.grown, h.sizes, h.limit, h.room, h.logged, h.only,
      h.frames⟩
  · exact .inr ⟨page, _, _, rfl, if_neg (by decide), if_neg (by decide), rfl, rfl,
      h.add hcalls (hlist.frames i hi)⟩

/-- What the loop leaves from page `i` on: the pages it mapped behind those that were there, all of them when it
returns 0. -/
theorem supplyLoop_run (hlarge : ∀ va, InLowerHalf va → NoLarger 0 m₀ 4 t₀.pageTable va) :
    ∀ (n i : Nat) {log : SupplyLog} {map : PageMap} {T : Tables} {k : Kernel}, i + n = count →
      SupplyInv p t₀ m₀ log map T k → SparedList T k.mem k.mmap info count →
        pageVirtAddr sub ((log sub).length + min n (mappedPages p sub info permissions (n + 1) i k).length) <
            subSpaceEnd sub →
          ∃ r k' map' T', supplyLoop (some p) sub info permissions (n + 1) i k = .ok (r, k') ∧
            SupplyInv p t₀ m₀ (log.add sub (mappedPages p sub info permissions (n + 1) i k)) map' T' k' ∧
            (r = 0 → (mappedPages p sub info permissions (n + 1) i k).length = n) ∧
            ∀ (j : Nat) (page : SuppliedPage), (mappedPages p sub info permissions (n + 1) i k)[j]? = some page →
              j < n ∧ page = ⟨pageAddr k.mem info (i + j), threadPerms t₀ permissions⟩
  | 0, i, log, map, T, k, hi, h, hlist, _ => by
    have hend : mappedPages p sub info permissions 1 i k = [] := by
      rw [mappedPages, hlist.list.count, if_neg (by omega)]
    rw [hend, SupplyLog.add_nil]
    refine ⟨0, k, map, T, ?_, h, fun _ => rfl, fun j page hj => ?_⟩
    rotate_left
    · simp at hj
    rw [supplyLoop, hlist.list.count, if_neg (by omega)]
    rfl
  | n + 1, i, log, map, T, k, hi, h, hlist, hroom => by
    obtain ⟨m', mmap', T', hlist', haddr, hround⟩ := h.round sub hlist (show i < count by omega) hlarge permissions
      (n + 1)
    rcases hround with ⟨hloop, hmapped, h'⟩ | ⟨page, k', map', hpage, hloop, hmapped, rfl, rfl, h'⟩
    · rw [hloop, hmapped, SupplyLog.add_nil]
      exact ⟨-1, _, map, T', rfl, h', fun h0 => absurd h0 (by decide), fun j page hj => by simp at hj⟩
    · rw [hmapped, List.length_cons, Nat.add_min_add_right] at hroom
      rw [hloop, hmapped, SupplyLog.add_cons]
      have hroom' : pageVirtAddr sub ((log sub).length + 1) < subSpaceEnd sub :=
        lt_of_le_of_lt (pageVirtAddr_mono sub (by omega)) hroom
      obtain ⟨r, k'', map'', T'', he, hinv, hall, hpages⟩ :=
        supplyLoop_run hlarge n (i + 1) (by omega) (h' hroom') hlist' (by
          rw [SupplyLog.add_self, List.length_append, List.length_singleton, Nat.add_assoc, Nat.add_comm 1]
          exact hroom)
      refine ⟨r, k'', map'', T'', he, hinv, fun hr => ?_, fun j page' hj => ?_⟩
      · rw [List.length_cons, hall hr]
      · cases j with
        | zero =>
          rw [List.getElem?_cons_zero] at hj
          cases hj
          exact ⟨Nat.succ_pos n, hpage⟩
        | succ j =>
          rw [List.getElem?_cons_succ] at hj
          obtain ⟨hlt, hpage'⟩ := hpages j page' hj
          rw [haddr _ (by omega), Nat.add_assoc, Nat.add_comm 1] at hpage'
          exact ⟨by omega, hpage'⟩

end

/-! ## Runs -/

section
variable {p : TcbPtr} {t₀ : Tcb} {m₀ : Mem} {log : SupplyLog} {map : PageMap} {T : Tables} {k k' : Kernel}
variable {sub : AddrSubSpace} {info permissions : Nat}

/-- Lists that are allocated in between change no page. -/
theorem SupplyInv.alloc {count pageType : Nat} {r : Option Nat} {mem : Mem} {mmap : MemMap}
    (h : SupplyInv p t₀ m₀ log map T k) (ht : pageTypeToSize pageType = defaultPageSize)
    (he : iallocFrames count pageType k.mem k.mmap = .ok (r, mem, mmap)) :
    SupplyInv p t₀ m₀ log map T { k with mem, mmap } := by
  have hok := h.calls.built.apart.ok
  have hcalls : PageCalls memMapSource t₀.pageTable m₀ map T mem mmap := by
    have hlisted : ∀ {info}, Listed count info k.mem k.mmap mem mmap →
        PageCalls memMapSource t₀.pageTable m₀ map T mem mmap := by
      intro info hlisted
      obtain ⟨n, rfl⟩ := hlisted.taken
      refine h.calls.fill ⟨memMapSource.ok_after hok _, fun f hf => ?_⟩ fun a ha => hlisted.fill hok ha
      exact h.calls.built.apart.free f (memMapSource.free_after hok _ hf)
    rcases @iallocFrames_spec _ k.mem k.mmap ht hok count with ⟨r', m', mmap', he', hlisting⟩ | ⟨-, -, he'⟩
    · rw [he] at he'
      cases he'
      cases hlisting with
      | refused _ => exact h.calls
      | missing _ hl _ => exact hlisted hl
      | listed _ hl _ _ => exact hlisted hl
    · rw [he] at he'
      cases he'
  exact ⟨hcalls, h.grown, h.sizes, h.limit, h.room, h.logged, h.only, h.frames⟩

/-- A list just allocated can be supplied. -/
theorem SupplyInv.infoPage {count pageType : Nat} {mem : Mem} {mmap : MemMap} (h : SupplyInv p t₀ m₀ log map T k)
    (ht : pageTypeToSize pageType = defaultPageSize)
    (he : iallocFrames count pageType k.mem k.mmap = .ok (some info, mem, mmap)) :
    InfoPage mem mmap t₀.pageTable info ∧ pageCount mem info = count ∧ count ≤ 510 := by
  have hok := h.calls.built.apart.ok
  have hlists := lists_of_iallocFrames ht hok.1 he
  have hbuilt := (h.alloc ht he).calls.built
  rcases @iallocFrames_spec _ k.mem k.mmap ht hok count with ⟨r', m', mmap', he', hlisting⟩ | ⟨-, -, he'⟩
  · rw [he] at he'
    cases he'
    cases hlisting with
    | listed hfew hlisted hserves _ =>
      obtain ⟨hin, hout⟩ := hlisted.mem_free hok
      have haligned := memMapSource.aligned _ _ hok hin
      refine ⟨⟨hlists.header.size, fun i hi => ?_, fun a h1 h2 => ?_⟩, hlists.header.count, hfew⟩
      · rw [hlists.header.count] at hi
        have htaken := (hlists.named _).2 ⟨i, lt_of_lt_of_le hi (Nat.le_max_right 1 count), rfl⟩
        have hfree := (hserves.taken_free hok htaken).1
        have hlow := memMapSource.low _ _ hok hfree
        exact ⟨memMapSource.aligned _ _ hok hfree, by omega⟩
      · -- the list fits into its frame
        rw [hlists.header.count] at h2
        rw [show a / 4096 * 4096 = info by omega]
        refine ⟨fun hlead => ?_, hout⟩
        exact hlead.level_ne hbuilt.wf hbuilt.root (h.calls.built.apart.free info hin)
  · rw [he] at he'
    cases he'

/-- A call maps the first pages of its list, all of them when it returns 0. -/
theorem SupplyInv.supply (h : SupplyInv p t₀ m₀ log map T k) (sub : AddrSubSpace)
    (hlarge : ∀ va, InLowerHalf va → NoLarger 0 m₀ 4 t₀.pageTable va)
    (hinfo : InfoPage k.mem k.mmap (k.sched.tcbs p).pageTable info)
    (hroom : pageVirtAddr sub ((log sub).length + min (pageCount k.mem info) (regionPages p sub info permissions k).length) <
      subSpaceEnd sub) :
    ∃ r k' map' T', threadSupplyMemRegion (some p) sub info permissions k = .ok (r, k') ∧
      SupplyInv p t₀ m₀ (log.add sub (regionPages p sub info permissions k)) map' T' k' ∧
      (r = 0 → (regionPages p sub info permissions k).length = pageCount k.mem info) ∧
      ∀ (j : Nat) (page : SuppliedPage), (regionPages p sub info permissions k)[j]? = some page →
        j < pageCount k.mem info ∧ page = ⟨pageAddr k.mem info (0 + j), threadPerms t₀ permissions⟩ := by
  have htable : (k.sched.tcbs p).pageTable = t₀.pageTable := by rw [h.grown]
  rw [htable] at hinfo
  have hunder : SupplyInv p t₀ m₀ log map (T.under k.mem t₀.pageTable) k :=
    ⟨h.calls.under, h.grown, h.sizes, h.limit, h.room, h.logged, h.only, h.frames⟩
  exact supplyLoop_run hlarge (pageCount k.mem info) 0 (Nat.zero_add _) hunder (hinfo.spared T) hroom

/-- `thread_supply_new_mem_region` is a list allocated and a call with it. -/
theorem SupplyInv.region {k' : Kernel} {pages pSize : Nat} {r : Option Nat} (h : SupplyInv p t₀ m₀ log map T k)
    (hlarge : ∀ va, InLowerHalf va → NoLarger 0 m₀ 4 t₀.pageTable va)
    (he : threadSupplyNewMemRegion (some p) sub pages pSize permissions k = .ok (r, k')) (hr : r ≠ none)
    (hroom : pageVirtAddr sub ((log sub).length + pages) < subSpaceEnd sub) :
    ∃ added map' T', added.length = pages ∧ (∀ page ∈ added, page.permissions = threadPerms t₀ permissions) ∧
      (∀ j page, added[j]? = some page → page.frame = memMapSource.nth j k.mmap) ∧
      (∀ {k₀}, SupplyRun p k₀ log k → SupplyRun p k₀ (log.add sub added) k') ∧
      SupplyInv p t₀ m₀ (log.add sub added) map' T' k' := by
  have ht := pageTypeToSize_pageTypeToSize (u32 pSize)
  obtain ⟨⟨r', mem, mmap⟩, hialloc, he⟩ := bind_eq_ok.1 he
  cases r' with
  | none =>
    cases he
    exact absurd rfl hr
  | some info =>
    obtain ⟨⟨v, k₂⟩, hcall, he⟩ := bind_eq_ok.1 he
    have h₁ := h.alloc ht hialloc
    obtain ⟨hinfo, hcount, hfew⟩ := h.infoPage ht hialloc
    have htable : (k.sched.tcbs p).pageTable = t₀.pageTable := by rw [h.grown]
    rw [← htable] at hinfo
    obtain ⟨v', k₃, map', T', hcall', hinv, hall, hpages⟩ := h₁.supply sub hlarge hinfo
      (lt_of_le_of_lt (pageVirtAddr_mono sub (by dsimp only; omega)) hroom)
    rw [show threadSupplyMemRegion (some p) sub info permissions { k with mem, mmap } = .ok (v, k₂) from hcall] at hcall'
    cases hcall'
    dsimp only at he
    split_ifs at he with hv
    · cases he
      exact absurd rfl hr
    · cases he
      have hlen := (hall (not_not.1 hv)).trans hcount
      refine ⟨_, map', T', hlen, fun page hm => ?_, fun j page hj => ?_, fun hrun => ?_, hinv⟩
      · obtain ⟨j, hj⟩ := List.mem_iff_getElem?.1 hm
        rw [(hpages j page hj).2]
      · -- the list names the frames in the order in which they were taken
        obtain ⟨-, -, hnth⟩ := iallocFrames_takes ht h.calls.built.apart.ok.1 hialloc
        have hlt := (List.getElem?_eq_some_iff.1 hj).1
        rw [(hpages j page hj).2, Nat.zero_add]
        refine hnth j (lt_of_lt_of_le ?_ (Nat.le_max_right 1 pages))
        omega
      refine .supply (.alloc hrun ht hialloc) hinfo hcall ?_
      rw [SupplyLog.add_self, List.length_append, hlen]
      exact hroom

theorem SupplyRun.inv {k₀ : Kernel} (hrun : SupplyRun p k₀ log k)
    (h : SupplyInv p t₀ m₀ (fun _ => []) map T k₀) (hlarge : ∀ va, InLowerHalf va → NoLarger 0 m₀ 4 t₀.pageTable va) :
    ∃ map' T', SupplyInv p t₀ m₀ log map' T' k := by
  induction hrun with
  | start => exact ⟨map, T, h⟩
  | alloc _ ht he ih =>
    obtain ⟨map', T', h'⟩ := ih
    exact ⟨map', T', h'.alloc ht he⟩
  | supply _ hinfo he hroom ih =>
    obtain ⟨map', T', h'⟩ := ih
    rw [SupplyLog.add_self, List.length_append] at hroom
    obtain ⟨r, k', map'', T'', he', hinv, -⟩ := h'.supply _ hlarge hinfo
      (lt_of_le_of_lt (pageVirtAddr_mono _ (Nat.add_le_add_left (Nat.min_le_right ..) _)) hroom)
    rw [he] at he'
    cases he'
    exact ⟨map'', T'', hinv⟩

end

/-! ## A new thread -/

section
variable {k k' : Kernel} {isPrivileged : Bool} {priority : BitVec 16} {addr root : Nat} {p : TcbPtr} {T : Tables}

/-- The new root translates as the table in CR3. -/
theorem Created.mmuWalk_eq (h : Created isPrivileged priority k k' addr p root)
    (hT : Built memMapSource k.sched.cr3 T k.mem k.mmap) (va : Nat) :
    mmuWalk k'.mem 4 root va = mmuWalk k.mem 4 k.sched.cr3 va := by
  obtain ⟨hnew, hcopy, -⟩ := h.tables hT.wf hT.apart hT.root
  have hi := vaIndex_lt va 3
  refine mmuWalk_step (hcopy _ hi) fun hp he => ?_
  exact mmuWalk_congr hT.wf (fun g j hg _ hj => entryAt_of_frame hT.wf hnew h.mem hg hj)
    (hT.wf.child_frame hT.root hi hp he).1

theorem Created.noLarger (h : Created isPrivileged priority k k' addr p root)
    (hT : Built memMapSource k.sched.cr3 T k.mem k.mmap)
    (hlarge : ∀ va, InLowerHalf va → NoLarger 0 k.mem 4 k.sched.cr3 va) :
    ∀ va, InLowerHalf va → NoLarger 0 k'.mem 4 root va := by
  intro va hva w hw
  rw [h.mmuWalk_eq hT] at hw
  exact hlarge va hva w hw

theorem Created.built (h : Created isPrivileged priority k k' addr p root)
    (hT : Built memMapSource k.sched.cr3 T k.mem k.mmap) :
    Built memMapSource root (T.insert root 4 (T.pre k.sched.cr3)) k'.mem k'.mmap := by
  obtain ⟨hnew, hcopy, hwf, hapart⟩ := h.tables hT.wf hT.apart hT.root
  refine ⟨hwf, copied_placed hT.wf hnew hT.root h.mem hcopy hT.placed, ?_, hapart, Tables.level_insert_self,
    (Function.update_self ..).trans hT.rootPre⟩
  intro g j hg hj hp
  obtain ⟨g', hlevel, hentry, -⟩ := copied_entry hT.wf hnew hT.root h.mem hcopy hg hj
  rw [hentry] at hp ⊢
  exact hT.blank g' j (by omega) hj hp

/-- Before the first page of a new thread. -/
theorem Created.supplyInv (h : Created isPrivileged priority k k' addr p root)
    (hT : Built memMapSource k.sched.cr3 T k.mem k.mmap) :
    SupplyInv p (newTcb k.tidGen isPrivileged priority root) k'.mem (fun _ => []) (fun _ => none)
      (T.insert root 4 (T.pre k.sched.cr3)) k' := by
  have htcb : k'.sched.tcbs p = newTcb k.tidGen isPrivileged priority root := by
    rw [h.sched, Sched.tcbs_modify_self]
  refine ⟨.start (h.built hT), by rw [htcb], fun sub => by rw [htcb]; rfl, by rw [htcb]; rfl, fun sub => ?_,
    fun sub i page hi => ?_, fun n c hn => (nomatch hn), fun sub page hm => (nomatch hm)⟩
  · cases sub <;> decide
  · simp at hi

/-- A run of supplies to a new thread. -/
theorem SupplyRun.created {k₀ : Kernel} {log : SupplyLog} (hrun : SupplyRun p k₀ log k')
    (h : Created isPrivileged priority k k₀ addr p root) (hT : Built memMapSource k.sched.cr3 T k.mem k.mmap)
    (hlarge : ∀ va, InLowerHalf va → NoLarger 0 k.mem 4 k.sched.cr3 va) :
    ∃ map' T', SupplyInv p (newTcb k.tidGen isPrivileged priority root) k₀.mem log map' T' k' := by
  exact hrun.inv (h.supplyInv hT) (h.noLarger hT hlarge)

end

/-! ## No gaps -/

/-- The pages of every sub-space follow each other from its start, each at the frame it came with, and the control block
counts them. -/
structure GapFree (p : TcbPtr) (log : SupplyLog) (k : Kernel) : Prop where
  sizes : ∀ sub, (k.sched.tcbs p).memory sub = 4096 * (log sub).length
  mapped : ∀ sub i page, (log sub)[i]? = some page →
    translate k.mem (k.sched.tcbs p).pageTable (pageVirtAddr sub i) = some page.frame
  limit : (k.sched.tcbs p).memoryLimit = (k.sched.tcbs p).memory .code + (k.sched.tcbs p).memory .mapping +
    (k.sched.tcbs p).memory .stack

theorem SupplyInv.gapFree {p : TcbPtr} {t₀ : Tcb} {m₀ : Mem} {log : SupplyLog} {map : PageMap} {T : Tables} {k : Kernel}
    (h : SupplyInv p t₀ m₀ log map T k) : GapFree p log k := by
  refine ⟨h.sizes, fun sub i page hi => ?_, ?_⟩
  · obtain ⟨w, hw, hleaf⟩ := h.calls.mapped _ _ (h.logged sub i page hi)
    obtain ⟨haligned, hlt⟩ := h.frames sub page (List.mem_of_getElem? hi)
    unfold Memory.translate
    rw [h.grown, hw]
    exact congrArg some (hleaf.frame haligned hlt _)
  · rw [h.limit, h.sizes, h.sizes, h.sizes]
    omega

/-- Every run of supplies to a new thread leaves its sub-spaces without a gap and fully accounted, provided that the table
in CR3 has no large page where they lie. -/
theorem sub_spaces_gap_free {k k₀ k' : Kernel} {isPrivileged : Bool} {priority : BitVec 16} {p : TcbPtr}
    {log : SupplyLog} {T : Tables} (hT : Built memMapSource k.sched.cr3 T k.mem k.mmap)
    (hlarge : ∀ va, InLowerHalf va → NoLarger 0 k.mem 4 k.sched.cr3 va)
    (hcreate : createThread isPrivileged priority k = .ok (some p, k₀)) (hrun : SupplyRun p k₀ log k') :
    GapFree p log k' := by
  obtain ⟨addr, root, hc⟩ := created_of_some hT.apart.ok hcreate
  obtain ⟨map', T', hinv⟩ := hrun.created hc hT hlarge
  exact hinv.gapFree

/-- A kernel with an empty root table and a fresh heap. -/
def freshKernel : Kernel := { newKernel with heap := ⟨smallHeap, []⟩ }

theorem freshKernel_built : Built memMapSource freshKernel.sched.cr3 rootOnly freshKernel.mem freshKernel.mmap :=
  .zeroed newKernel_apart.ok (by decide) (fun h => absurd (newKernel_apart.free _ h) (by decide)) fun _ _ =>
    entryAt_zero ..

theorem freshKernel_noLarger (va : Nat) : NoLarger 0 freshKernel.mem 4 freshKernel.sched.cr3 va :=
  noLarger_zeroed (fun _ _ => entryAt_zero ..) 0 va

/-- A first thread of the kernel, and what its kernel passes. -/
theorem freshKernel_created {test : Option TcbPtr × Kernel → Bool}
    (hruns : okAnd (createThread false 1 freshKernel) (fun r => r.1.isSome && test r) = true) :
    ∃ p k₀ addr root, createThread false 1 freshKernel = .ok (some p, k₀) ∧
      Created false 1 freshKernel k₀ addr p root ∧ test (some p, k₀) = true := by
  obtain ⟨⟨p, k₀⟩, hcreate, hr⟩ := okAnd_eq_true.1 hruns
  dsimp only at hr
  rw [Bool.and_eq_true] at hr
  obtain ⟨hsome, hr⟩ := hr
  obtain ⟨p, rfl⟩ := Option.isSome_iff_exists.1 hsome
  obtain ⟨addr, root, hc⟩ := created_of_some freshKernel_built.apart.ok hcreate
  exact ⟨p, k₀, addr, root, hcreate, hc, hr⟩

/-- Pages for a new thread of the kernel. -/
theorem freshKernel_region (sub : AddrSubSpace) (pages : Nat)
    (hruns : okAnd (createThread false 1 freshKernel) (fun r =>
      r.1.isSome && okAnd (threadSupplyNewMemRegion r.1 sub pages 0 writeable r.2) fun r' => r'.1.isSome) = true)
    (hroom : pageVirtAddr sub pages < subSpaceEnd sub) :
    ∃ p k₀ added k', createThread false 1 freshKernel = .ok (some p, k₀) ∧ added.length = pages ∧
      SupplyRun p k₀ (SupplyLog.add (fun _ => []) sub added) k' := by
  obtain ⟨p, k₀, addr, root, hcreate, hc, hr⟩ := freshKernel_created hruns
  obtain ⟨⟨r, k'⟩, hcall, hsome⟩ := okAnd_eq_true.1 hr
  obtain ⟨map, T, hinv⟩ := SupplyRun.start.created hc freshKernel_built fun va _ => freshKernel_noLarger va
  obtain ⟨added, -, -, hlen, -, -, hrun, -⟩ := hinv.region
    (fun va _ w hw => freshKernel_noLarger va w (by rwa [← hc.mmuWalk_eq freshKernel_built])) hcall
    (Option.isSome_iff_ne_none.1 hsome) (by rw [List.length_nil, Nat.zero_add]; exact hroom)
  exact ⟨p, k₀, added, k', hcreate, hlen, hrun .start⟩

/-- Two pages of code for a thread of the kernel. -/
theorem sub_spaces_gap_free_twoPages : ∃ p k₀ log k', createThread false 1 freshKernel = .ok (some p, k₀) ∧
    SupplyRun p k₀ log k' ∧ (log .code).length = 2 ∧ GapFree p log k' := by
  obtain ⟨p, k₀, added, k', hcreate, hlen, hrun⟩ := freshKernel_region .code 2 (by decide +kernel) (by decide)
  refine ⟨p, k₀, _, k', hcreate, hrun, ?_, sub_spaces_gap_free freshKernel_built
    (fun va _ => freshKernel_noLarger va) hcreate hrun⟩
  rw [SupplyLog.add_self, List.nil_append]
  exact hlen

end Icarus.Processes
