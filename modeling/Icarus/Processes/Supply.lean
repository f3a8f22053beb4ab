/-
What supplying a thread with memory does to the tables and the frames: a run of `page_in` calls inside the
three sub-spaces, which gets through exactly when the allocator has the frames that are asked for.
-/
import Mathlib
import Icarus.Memory.FrameRelease
import Icarus.Memory.TableRuns
import Icarus.Processes.Pick
import Icarus.Processes.Process

namespace Icarus.Processes

open Icarus.Base Icarus.Memory

/-! ## Control blocks -/

theorem Sched.modify_const (s : Sched) (p : TcbPtr) : (s.modify p fun _ => s.tcbs p) = s := by
  unfold Sched.modify
  rw [Function.update_eq_self]

/-- `t'` has the memory of `t` in the sub-spaces other than `sub`, and everything else from `t`. -/
structure Grown (sub : AddrSubSpace) (t t' : Tcb) : Prop where
  same : t' = { t with memory := t'.memory, memoryLimit := t'.memoryLimit }
  others : ∀ x, x ≠ sub → t'.memory x = t.memory x

theorem Grown.refl (sub : AddrSubSpace) (t : Tcb) : Grown sub t t := ⟨rfl, fun _ _ => rfl⟩

theorem Grown.grow {sub : AddrSubSpace} {t t' : Tcb} {size : Nat} (h : Grown sub (t.grow sub size) t') :
    Grown sub t t' := by
  refine ⟨h.same, ?_⟩
  intro x hx
  rw [h.others x hx]
  exact Function.update_of_ne hx ..

/-! ## Addresses of the sub-spaces -/

theorem subSpaceToAddr_aligned (sub : AddrSubSpace) : subSpaceToAddr sub % 2 ^ 21 = 0 := by
  cases sub <;> decide

/-- The pages a sub-space can get in one go are served by one page table. -/
theorem samePt_subSpace (sub : AddrSubSpace) {i : Nat} (hi : i < 512) :
    SamePt (subSpaceToAddr sub) (subSpaceToAddr sub + 4096 * i) := by
  intro j h1 h2
  have haligned := subSpaceToAddr_aligned sub
  unfold vaIndex
  generalize subSpaceToAddr sub = base at haligned ⊢
  interval_cases j <;> omega

theorem subSpaceToAddr_lt (sub : AddrSubSpace) : subSpaceToAddr sub < 2 ^ 47 := by
  cases sub <;> decide

/-- The sub-spaces lie in different slots of the root. -/
theorem subSpace_slots {a b : AddrSubSpace} (h : a ≠ b) :
    vaIndex (subSpaceToAddr a) 3 ≠ vaIndex (subSpaceToAddr b) 3 := by
  cases a <;> cases b <;> first | exact absurd rfl h | decide

/-! ## The loop over the pages -/

/-- The addresses `page_in` is called for to supply a sub-space with `n` pages. -/
def fedPages (sub : AddrSubSpace) (n : Nat) : Set Nat := {va | n ≠ 0 ∧ SamePt (subSpaceToAddr sub) va}

/-- What a loop for `n` pages that found `need` tables missing does. -/
structure Fed (sub : AddrSubSpace) (root n need : Nat) (T : Tables) (m : Mem) (mmap : MemMap) (t : Tcb) (r : Int)
    (T' : Tables) (m' : Mem) (mmap' : MemMap) (t' : Tcb) : Prop where
  run : TableRun memMapSource root (fedPages sub n) T m mmap T' m' mmap'
  result : r = 0 ∨ r = -1
  served : r = 0 ↔ memMapSource.Serves need mmap
  after : r = 0 → mmap' = memMapSource.after need mmap
  grown : Grown sub t t'

/-- One round maps page `i`, and when that went well the loop goes on. -/
theorem supplyLoop_round {sub : AddrSubSpace} {p : TcbPtr} {root info count permissions i : Nat} {k : Kernel} {r : Int}
    {m₁ : Mem} {mmap₁ : MemMap} (fuel : Nat) (hi : i < count) (hcount : count ≤ 510) (hlist : ListOf k.mem info count)
    (htable : (k.sched.tcbs p).pageTable = root) (hmemory : (k.sched.tcbs p).memory sub = 4096 * i)
    (hpage : pageIn (iallocKframe · 1) root (subSpaceToAddr sub + 4096 * i) (pageAddr k.mem info i) defaultPageSize
      (threadPerms (k.sched.tcbs p) permissions) k.mem k.mmap = (r, m₁, mmap₁)) :
    supplyLoop (some p) sub info permissions (fuel + 1) i k =
      if r ≠ 0 then .ok (-1, { k with mem := m₁, mmap := mmap₁ }) else
        supplyLoop (some p) sub info permissions fuel (i + 1) { k with
          mem := m₁
          mmap := mmap₁
          sched := k.sched.modify p (·.grow sub (pageSize m₁ info)) } := by
  have hbase := subSpaceToAddr_lt sub
  have hva : add64 (subSpaceToAddr sub) (4096 * i) = subSpaceToAddr sub + 4096 * i := add64_of_lt (by omega)
  rw [supplyLoop, hlist.count, if_pos hi, hlist.size]
  dsimp only [deref, bind, Except.bind]
  rw [htable, hmemory, hva, hpage]
  rfl

/-- The size the control block counts up. -/
theorem memory_grow {sub : AddrSubSpace} {p : TcbPtr} {s : Sched} {i size : Nat} (hi : i < 510)
    (hmemory : (s.tcbs p).memory sub = 4096 * i) (hsize : size = defaultPageSize) :
    ((s.modify p (·.grow sub size)).tcbs p).memory sub = 4096 * (i + 1) := by
  rw [Sched.tcbs_modify_self, hsize]
  show Function.update _ sub _ sub = _
  rw [Function.update_self, hmemory]
  exact add64_of_lt (show 4096 * i + 4096 < 2 ^ 64 by omega)

theorem supplyLoop_spec {sub : AddrSubSpace} {p : TcbPtr} {root info count permissions : Nat} (hcount : count ≤ 510)
    (hinfo : info % 4096 = 0) :
    ∀ (n i : Nat) (k : Kernel) (T : Tables), i + n = count → T.WF k.mem → T.Apart memMapSource k.mmap →
      T.level root = 4 → T.level info = 0 → info ∉ k.mmap.free → ListOf k.mem info count →
        (k.sched.tcbs p).pageTable = root → (k.sched.tcbs p).memory sub = 4096 * i →
          Clear k.mem (subSpaceToAddr sub) 3 root →
            ∃ r m' mmap' T' t', supplyLoop (some p) sub info permissions (n + 1) i k =
                .ok (r, { k with mem := m', mmap := mmap', sched := k.sched.modify p fun _ => t' }) ∧
              Fed sub root n (if n = 0 then 0 else missing k.mem (subSpaceToAddr sub) 3 root) T k.mem k.mmap
                (k.sched.tcbs p) r T' m' mmap' t'
  | 0, i, k, T, hi, _, _, _, _, _, hlist, _, _, _ => by
    refine ⟨0, k.mem, k.mmap, T, k.sched.tcbs p, ?_, .refl .., .inl rfl, iff_of_true rfl trivial, fun _ => rfl, .refl ..⟩
    unfold supplyLoop
    rw [hlist.count, if_neg (by omega), Sched.modify_const]
    rfl
  | n + 1, i, k, T, hi, hwf, hs, hroot, hframe, hfree, hlist, htable, hmemory, hclear => by
    have hsame := samePt_subSpace sub (show i < 512 by omega)
    have hclear' : Clear k.mem (subSpaceToAddr sub + 4096 * i) 3 root := (hsame.clear_iff le_rfl).2 hclear
    obtain ⟨r, m₁, mmap₁, T₁, hpage, hp⟩ := @pageIn_spec MemMap memMapSource T k.mem k.mmap root
      (subSpaceToAddr sub + 4096 * i) (pageAddr k.mem info i) (threadPerms (k.sched.tcbs p) permissions) hwf hs hroot
      hclear'.noLarge
    obtain ⟨hresult, hserved, hafter⟩ := hp.takes hwf hs hroot hclear'
    rw [hsame.missing_eq le_rfl] at hserved hafter
    have hrun : TableRun memMapSource root (fedPages sub (n + 1)) T k.mem k.mmap T₁ m₁ mmap₁ :=
      .page (.refl ..) ⟨Nat.succ_ne_zero n, hsame⟩ hp
    rw [supplyLoop_round (n + 1) (by omega) hcount hlist htable hmemory hpage, if_neg (Nat.succ_ne_zero n)]
    rcases hresult with rfl | rfl
    · -- the tables this page needed are there now, so the rest of the loop takes no frame
      obtain ⟨hwf₁, hs₁, hle⟩ := hrun.sound hwf hs hroot
      obtain ⟨hframe₁, hfree₁, hbytes⟩ := hrun.held hwf hs hroot hframe hfree
      obtain ⟨hafter₁, hmissing₁⟩ := hafter rfl
      have hroot₁ := hrun.level_root hwf hs hroot
      have hlist₁ := hlist.congr hinfo hbytes
      have hclear₁ := hrun.clear hwf hs hroot hroot hclear
      rw [hsame.missing_eq le_rfl] at hmissing₁
      have hmemory₁ := memory_grow (by omega) hmemory hlist₁.size
      have htable₁ : ((k.sched.modify p (·.grow sub (pageSize m₁ info))).tcbs p).pageTable = root := by
        rw [Sched.tcbs_modify_self]
        exact htable
      obtain ⟨r, m', mmap', T', t', hloop, hfed⟩ := @supplyLoop_spec sub p root info count permissions hcount hinfo n (i + 1)
        { k with mem := m₁, mmap := mmap₁, sched := k.sched.modify p (·.grow sub (pageSize m₁ info)) } T₁ (by omega)
        hwf₁ hs₁ hroot₁ hframe₁ hfree₁ hlist₁ htable₁ hmemory₁ hclear₁
      have hneed : (if n = 0 then 0 else missing m₁ (subSpaceToAddr sub) 3 root) = 0 := by
        rw [hmissing₁, ite_self]
      have hserved' := hfed.served
      have hafter' := hfed.after
      have hgrown := hfed.grown
      dsimp only at hserved' hafter' hgrown
      rw [hneed] at hserved' hafter'
      obtain rfl : r = 0 := hserved'.2 trivial
      have hrun' := hfed.run.mono fun va hva => (⟨Nat.succ_ne_zero n, hva.2⟩ : va ∈ fedPages sub (n + 1))
      refine ⟨0, m', mmap', T', t', ?_, hrun.trans hrun', .inl rfl, hserved, fun _ => (hafter' rfl).trans hafter₁, ?_⟩
      · rw [if_neg (by decide), hloop]
        dsimp only
        rw [Sched.modify_modify]
      · rw [Sched.tcbs_modify_self] at hgrown
        exact hgrown.grow
    · refine ⟨-1, m₁, mmap₁, T₁, k.sched.tcbs p, ?_, hrun, .inr rfl, hserved, fun h => ?_, .refl ..⟩
      · rw [if_pos (by decide), Sched.modify_const]
      · cases h

/-! ## One sub-space -/

theorem pageTypeToSize_pageTypeToSize (n : Nat) : pageTypeToSize (pageTypeToSize n) = defaultPageSize := by
  unfold pageTypeToSize superPs hugePs defaultPageSize
  split_ifs <;> first | rfl | omega

/-- The frames that pages of a sub-space take: those of the list, and the tables that are missing. -/
def regionFrames (m : Mem) (root : Nat) (sub : AddrSubSpace) (pages : Nat) : Nat :=
  frameCount pages + if pages = 0 then 0 else missing m (subSpaceToAddr sub) 3 root

/-- What supplying one sub-space does. -/
structure RegionFed (sub : AddrSubSpace) (root pages : Nat) (T : Tables) (m : Mem) (mmap : MemMap) (t : Tcb)
    (r : Option Nat) (T' : Tables) (m' : Mem) (mmap' : MemMap) (t' : Tcb) : Prop where
  run : TableRun memMapSource root {va | pages ≤ 510 ∧ va ∈ fedPages sub pages} T m mmap T' m' mmap'
  served : r.isSome = true ↔ pages ≤ 510 ∧ memMapSource.Serves (regionFrames m root sub pages) mmap
  after : r.isSome = true → mmap' = memMapSource.after (regionFrames m root sub pages) mmap
  grown : Grown sub t t'
  first : ∀ info, r = some info → info = memMapSource.nth 0 mmap
  lists : ∀ info, r = some info → Lists m' info pages (memMapSource.taken (frameCount pages) mmap)
  held : r.isSome = true → ∀ f ∈ memMapSource.taken (frameCount pages) mmap,
    T'.level f = 0 ∧ f ∈ mmap'.frames ∧ f ∉ mmap'.free

section
variable {T T₁ T' : Tables} {m m₁ m' : Mem} {mmap mmap₁ mmap' : MemMap} {t t' : Tcb} {sub : AddrSubSpace}
variable {root pages info : Nat}

/-- Writing a list is a step of a run: the frames it writes and takes were free. -/
theorem tableRun_of_listed {V : Set Nat} (h : Listed pages info m mmap m₁ mmap₁) (hok : memMapSource.Ok mmap) :
    TableRun memMapSource root V T m mmap T m₁ mmap₁ := by
  obtain ⟨n, rfl⟩ := h.taken
  exact .fill (n + 1) (.refl ..) fun a ha => h.fill hok ha

/-- Nothing was supplied: there are too many pages, or too few frames for them. -/
theorem regionFed_none (hrun : TableRun memMapSource root {va | pages ≤ 510 ∧ va ∈ fedPages sub pages} T m mmap T m' mmap')
    (hno : ¬(pages ≤ 510 ∧ memMapSource.Serves (regionFrames m root sub pages) mmap)) :
    RegionFed sub root pages T m mmap t none T m' mmap' t := by
  refine ⟨hrun, iff_of_false (by decide) hno, ?_, .refl .., ?_, ?_, ?_⟩
  · intro h
    cases h
  · intro info h
    cases h
  · intro info h
    cases h
  · intro h
    cases h

/-- A complete list whose frames the loop maps, as far as there are frames for the tables. -/
theorem Fed.region {r : Int} (hwf : T.WF m) (hs : T.Apart memMapSource mmap) (hroot : T.level root = 4)
    (hfew : pages ≤ 510) (hlisted : Listed pages info m mmap m₁ mmap₁)
    (hserves : memMapSource.Serves (frameCount pages) mmap)
    (hafter : mmap₁ = memMapSource.after (frameCount pages) mmap)
    (hlists : Lists m₁ info pages (memMapSource.taken (frameCount pages) mmap))
    (hfed : Fed sub root pages (if pages = 0 then 0 else missing m (subSpaceToAddr sub) 3 root) T m₁ mmap₁ t r T' m'
      mmap' t') :
    RegionFed sub root pages T m mmap t (if r ≠ 0 then none else some info) T' m' mmap' t' := by
  have hok := hs.ok
  obtain ⟨hinfo_free, hinfo_taken⟩ := hlisted.mem_free hok
  have hinfo := memMapSource.aligned _ _ hok hinfo_free
  have hrun₁ : TableRun memMapSource root {va | pages ≤ 510 ∧ va ∈ fedPages sub pages} T m mmap T m₁ mmap₁ :=
    tableRun_of_listed hlisted hok
  obtain ⟨hwf₁, hs₁, -⟩ := hrun₁.sound hwf hs hroot
  have hrun := hrun₁.trans (hfed.run.mono fun va hva => ⟨hfew, hva⟩)
  have hsplit : memMapSource.Serves (regionFrames m root sub pages) mmap ↔ r = 0 := by
    unfold regionFrames
    rw [memMapSource.serves_add, ← hafter, hfed.served]
    exact and_iff_right hserves
  refine ⟨hrun, ?_, ?_, hfed.grown, ?_, ?_, ?_⟩
  · rw [hsplit, and_iff_right hfew]
    by_cases hr : r = 0 <;> simp [hr]
  · intro hr
    have hr0 : r = 0 := by
      by_contra h0
      rw [if_pos h0] at hr
      cases hr
    unfold regionFrames
    rw [hfed.after hr0, memMapSource.after_add, ← hafter]
  · intro x hx
    split_ifs at hx with hr
    cases hx
    exact hlisted.first.1.symm
  · intro x hx
    split_ifs at hx with hr
    cases hx
    exact hlists.congr hfew hinfo (hfed.run.held hwf₁ hs₁ hroot (hs.free info hinfo_free) hinfo_taken).2.2
  · intro _ f hf
    -- a frame of the list is no table and is free no more, so the loop leaves it alone
    obtain ⟨hin, hout⟩ := hserves.taken_free hok hf
    obtain ⟨hlevel, hfree, -⟩ := hfed.run.held hwf₁ hs₁ hroot (hs.free f hin) (hafter ▸ hout)
    refine ⟨hlevel, ?_, hfree⟩
    obtain ⟨n, hn⟩ := hrun.calls
    rw [hn, frames_after hok]
    exact free_subset_frames hin

end

theorem threadSupplyNewMemRegion_spec {sub : AddrSubSpace} {p : TcbPtr} {root pages pSize permissions : Nat} {k : Kernel}
    {T : Tables} (hwf : T.WF k.mem) (hs : T.Apart memMapSource k.mmap) (hroot : T.level root = 4)
    (htable : (k.sched.tcbs p).pageTable = root) (hmemory : (k.sched.tcbs p).memory sub = 0)
    (hclear : Clear k.mem (subSpaceToAddr sub) 3 root) :
    (∃ r m' mmap' T' t', threadSupplyNewMemRegion (some p) sub pages pSize permissions k =
        .ok (r, { k with mem := m', mmap := mmap', sched := k.sched.modify p fun _ => t' }) ∧
      RegionFed sub root pages T k.mem k.mmap (k.sched.tcbs p) r T' m' mmap' t') ∨
    (pages ≤ 510 ∧ (memMapSource.alloc k.mmap).1 = frameAllocFailed) ∧
      ∃ e, threadSupplyNewMemRegion (some p) sub pages pSize permissions k = .error e := by
  have htype := pageTypeToSize_pageTypeToSize (u32 pSize)
  unfold threadSupplyNewMemRegion
  dsimp only
  rcases @iallocFrames_spec _ k.mem k.mmap htype hs.ok pages with ⟨r, m₁, mmap₁, he, hlisting⟩ | ⟨h1, h2, he⟩
  · left
    rw [he]
    cases hlisting with
    | refused hmany =>
      refine ⟨none, k.mem, k.mmap, T, k.sched.tcbs p, ?_, regionFed_none (.refl ..) fun h => by omega⟩
      rw [Sched.modify_const]
      rfl
    | missing _ hlisted hserves =>
      refine ⟨none, m₁, mmap₁, T, k.sched.tcbs p, ?_, regionFed_none (tableRun_of_listed hlisted hs.ok) ?_⟩
      · rw [Sched.modify_const]
        rfl
      · rintro ⟨-, h⟩
        exact hserves ((memMapSource.serves_add _ _ _).1 h).1
    | @listed info _ _ hfew hlisted hserves hafter =>
      -- the frame of the list was free, so filling it in touches no table
      obtain ⟨hinfo_free, hinfo_taken⟩ := hlisted.mem_free hs.ok
      have hinfo := memMapSource.aligned _ _ hs.ok hinfo_free
      have hframe : T.level info = 0 := hs.free info hinfo_free
      have hrun₁ : TableRun memMapSource root ∅ T k.mem k.mmap T m₁ mmap₁ := tableRun_of_listed hlisted hs.ok
      obtain ⟨hwf₁, hs₁, -⟩ := hrun₁.sound hwf hs hroot
      obtain ⟨hclear₁, hmissing⟩ := way_congr hwf
        (fun g j h1 _ hj => hs.fill_entryAt hwf (fun a ha => hlisted.fill hs.ok ha) (by omega) hj) hroot hclear
      obtain ⟨r, m', mmap', T', t', hloop, hfed⟩ := @supplyLoop_spec sub p root info pages permissions hfew hinfo pages 0
        { k with mem := m₁, mmap := mmap₁ } T (by omega) hwf₁ hs₁ hroot hframe hinfo_taken hlisted.list htable
        hmemory hclear₁
      dsimp only at hfed
      rw [hmissing] at hfed
      have hcall : threadSupplyMemRegion (some p) sub info permissions { k with mem := m₁, mmap := mmap₁ } =
          .ok (r, { k with mem := m', mmap := mmap', sched := k.sched.modify p fun _ => t' }) := by
        unfold threadSupplyMemRegion
        rw [show pageCount m₁ info = pages from hlisted.list.count]
        exact hloop
      refine ⟨if r ≠ 0 then none else some info, m', mmap', T', t', ?_, hfed.region hwf hs hroot hfew hlisted hserves hafter
        (lists_of_iallocFrames htype hs.ok.1 he)⟩
      dsimp only [bind, Except.bind]
      rw [hcall]
      dsimp only
      split_ifs <;> rfl
  · right
    rw [he]
    exact ⟨⟨h1, h2⟩, _, rfl⟩

/-! ## The three sub-spaces -/

/-- The pages asked for a sub-space. -/
def AllocationInfo.pages (info : AllocationInfo) : AddrSubSpace → Nat
  | .code => info.codePages
  | .mapping => info.mappingPages
  | .stack => info.stackPages

/-- The list of the frames of a sub-space. -/
def SupplyBlock.part (supply : SupplyBlock) : AddrSubSpace → Option Nat
  | .code => supply.codeMemory
  | .mapping => supply.mappingMemory
  | .stack => supply.stackMemory

/-- A block with all three lists. -/
theorem SupplyBlock.eq_some {supply : SupplyBlock} (hall : ∀ sub, supply.part sub ≠ none) :
    ∃ code mapping stack, supply = ⟨some code, some mapping, some stack⟩ := by
  obtain ⟨code, mapping, stack⟩ := supply
  obtain ⟨code, rfl⟩ := Option.ne_none_iff_exists'.1 (show code ≠ none from hall .code)
  obtain ⟨mapping, rfl⟩ := Option.ne_none_iff_exists'.1 (show mapping ≠ none from hall .mapping)
  obtain ⟨stack, rfl⟩ := Option.ne_none_iff_exists'.1 (show stack ≠ none from hall .stack)
  exact ⟨code, mapping, stack, rfl⟩

/-- The frames that the pages of all sub-spaces take. -/
def supplyFrames (m : Mem) (root : Nat) (info : AllocationInfo) : Nat :=
  regionFrames m root .code info.codePages +
    (regionFrames m root .mapping info.mappingPages + regionFrames m root .stack info.stackPages)

/-- The call asks for no more pages than a list has room for, and the allocator has all the frames. -/
def CanSupply (m : Mem) (mmap : MemMap) (root : Nat) (info : AllocationInfo) : Prop :=
  (∀ sub, info.pages sub ≤ 510) ∧ memMapSource.Serves (supplyFrames m root info) mmap

/-- The addresses that get a page. -/
def suppliedPages (info : AllocationInfo) : Set Nat :=
  {va | ∃ sub, info.pages sub ≤ 510 ∧ va ∈ fedPages sub (info.pages sub)}

/-- The list at `x` names frames that are neither tables nor free. -/
structure HeldList (T : Tables) (m : Mem) (mmap : MemMap) (x count : Nat) (F : Set Nat) : Prop where
  small : count ≤ 510
  aligned : x % 4096 = 0
  mem : x ∈ F
  lists : Lists m x count F
  held : ∀ f ∈ F, T.level f = 0 ∧ f ∈ mmap.frames ∧ f ∉ mmap.free

section
variable {T T' : Tables} {m m' : Mem} {mmap mmap' : MemMap} {t t' : Tcb} {sub other : AddrSubSpace} {root pages : Nat}
variable {r : Option Nat} {V : Set Nat} {x count : Nat} {F : Set Nat}

/-- A run leaves such a list as it is. -/
theorem HeldList.run (h : HeldList T m mmap x count F) (hrun : TableRun memMapSource root V T m mmap T' m' mmap')
    (hwf : T.WF m) (hs : T.Apart memMapSource mmap) (hroot : T.level root = 4) : HeldList T' m' mmap' x count F := by
  have hkept := fun f hf => hrun.held hwf hs hroot (h.held f hf).1 (h.held f hf).2.2
  refine ⟨h.small, h.aligned, h.mem, h.lists.congr h.small h.aligned (hkept x h.mem).2.2, ?_⟩
  intro f hf
  obtain ⟨hlevel, hfree, -⟩ := hkept f hf
  obtain ⟨n, hn⟩ := hrun.calls
  refine ⟨hlevel, ?_, hfree⟩
  rw [hn, frames_after hs.ok]
  exact (h.held f hf).2.1

theorem RegionFed.servesList (h : RegionFed sub root pages T m mmap t r T' m' mmap' t') (hr : r ≠ none) :
    memMapSource.Serves (frameCount pages) mmap :=
  ((memMapSource.serves_add _ _ _).1 (h.served.1 (Option.isSome_iff_ne_none.2 hr)).2).1

theorem RegionFed.heldList (h : RegionFed sub root pages T m mmap t r T' m' mmap' t') (hok : memMapSource.Ok mmap)
    (hr : r = some x) : HeldList T' m' mmap' x pages (memMapSource.taken (frameCount pages) mmap) := by
  have hsome : r.isSome = true := by rw [hr]; rfl
  have hserves := h.servesList (Option.isSome_iff_ne_none.1 hsome)
  have hmem : x ∈ memMapSource.taken (frameCount pages) mmap := by
    refine ⟨0, ?_, h.first x hr⟩
    unfold frameCount
    omega
  exact ⟨(h.served.1 hsome).1, memMapSource.aligned _ _ hok (hserves.taken_free hok hmem).1, hmem, h.lists x hr,
    h.held hsome⟩

/-- What the next sub-space starts from. -/
theorem RegionFed.next (h : RegionFed sub root pages T m mmap t r T' m' mmap' t') (hwf : T.WF m)
    (hs : T.Apart memMapSource mmap) (hroot : T.level root = 4) :
    T'.WF m' ∧ T'.Apart memMapSource mmap' ∧ T'.level root = 4 ∧ T'.pre root = T.pre root ∧
      t'.pageTable = t.pageTable ∧ ∀ va, Clear m va 3 root → Clear m' va 3 root := by
  obtain ⟨hwf', hs', hle⟩ := h.run.sound hwf hs hroot
  obtain ⟨hroot', hpre'⟩ := hle root (by omega)
  refine ⟨hwf', hs', hroot'.trans hroot, hpre', ?_, fun va => h.run.clear hwf hs hroot hroot⟩
  rw [h.grown.same]

/-- Where frames run out for one sub-space, they run out for it and more. -/
theorem not_serves_regionFrames (hfail : (memMapSource.alloc mmap).1 = frameAllocFailed) (n : Nat) :
    ¬memMapSource.Serves (regionFrames m root sub pages + n) mmap := by
  obtain ⟨k, hk⟩ : ∃ k, regionFrames m root sub pages + n = k + 1 := by
    refine ⟨regionFrames m root sub pages + n - 1, ?_⟩
    unfold regionFrames frameCount
    omega
  rw [hk]
  exact fun h => h.1 hfail

/-- Where there are frames for one sub-space and more, that one gets them and the rest is left. -/
theorem RegionFed.rest (h : RegionFed sub root pages T m mmap t r T' m' mmap' t') (hfew : pages ≤ 510) {n : Nat}
    (hserves : memMapSource.Serves (regionFrames m root sub pages + n) mmap) :
    r.isSome = true ∧ memMapSource.Serves n mmap' := by
  obtain ⟨h1, h2⟩ := (memMapSource.serves_add _ _ _).1 hserves
  have hr := h.served.2 ⟨hfew, h1⟩
  rw [h.after hr]
  exact ⟨hr, h2⟩

/-- The frames taken for a list and those taken later. -/
theorem RegionFed.disjoint_later (h : RegionFed sub root pages T m mmap t r T' m' mmap' t')
    (hr : r ≠ none) {s : MemMap} (hs : memMapSource.free s ⊆ memMapSource.free mmap') {n : Nat}
    (hserves : memMapSource.Serves n s) (hoks : memMapSource.Ok s) :
    Disjoint (memMapSource.taken (frameCount pages) mmap) (memMapSource.taken n s) := by
  rw [Set.disjoint_left]
  intro f hf hf'
  exact (h.held (Option.isSome_iff_ne_none.2 hr) f hf).2.2 (hs (hserves.taken_free hoks hf').1)

/-- The other sub-spaces are as they were. -/
theorem RegionFed.missing_other (h : RegionFed sub root pages T m mmap t r T' m' mmap' t') (hwf : T.WF m)
    (hs : T.Apart memMapSource mmap) (hroot : T.level root = 4) (hpl : T.Placed m) (hpre : T.pre root = 0)
    (hne : other ≠ sub) (hclear : Clear m (subSpaceToAddr other) 3 root) (n : Nat) :
    regionFrames m' root other n = regionFrames m root other n := by
  unfold regionFrames
  rw [h.run.missing_other hwf hs hroot hpl hpre hclear]
  rintro va ⟨-, -, hsame⟩
  rw [hsame 3 (by decide) le_rfl]
  exact subSpace_slots hne

end

/-- What supplying all three does. -/
structure Supplied (root : Nat) (info : AllocationInfo) (T : Tables) (m : Mem) (mmap : MemMap) (t : Tcb)
    (supply : SupplyBlock) (T' : Tables) (m' : Mem) (mmap' : MemMap) (t' : Tcb) : Prop where
  run : TableRun memMapSource root (suppliedPages info) T m mmap T' m' mmap'
  tcb : t' = { t with memory := t'.memory, memoryLimit := t'.memoryLimit }
  lists : ∃ F : AddrSubSpace → Set Nat,
    (∀ sub x, supply.part sub = some x → HeldList T' m' mmap' x (info.pages sub) (F sub)) ∧
      ∀ a b, a ≠ b → supply.part a ≠ none → supply.part b ≠ none → Disjoint (F a) (F b)
  code : ∀ x, supply.codeMemory = some x → x = memMapSource.nth 0 mmap ∧
    HeldList T' m' mmap' x info.codePages (memMapSource.taken (frameCount info.codePages) mmap)
  served : T.Placed m → T.pre root = 0 → ((∀ sub, supply.part sub ≠ none) ↔ CanSupply m mmap root info)

section
variable {T T₁ T₂ T₃ : Tables} {m m₁ m₂ m₃ : Mem} {mmap mmap₁ mmap₂ mmap₃ : MemMap} {t t₁ t₂ t₃ : Tcb} {root : Nat}
variable {info : AllocationInfo} {r₁ r₂ r₃ : Option Nat}

/-- The lists there are at the end, each of other frames than the others. -/
theorem regions_lists (hwf : T.WF m) (hs : T.Apart memMapSource mmap) (hroot : T.level root = 4)
    (h₁ : RegionFed .code root info.codePages T m mmap t r₁ T₁ m₁ mmap₁ t₁)
    (h₂ : RegionFed .mapping root info.mappingPages T₁ m₁ mmap₁ t₁ r₂ T₂ m₂ mmap₂ t₂)
    (h₃ : RegionFed .stack root info.stackPages T₂ m₂ mmap₂ t₂ r₃ T₃ m₃ mmap₃ t₃) :
    (∃ F : AddrSubSpace → Set Nat,
      (∀ sub x, (SupplyBlock.mk r₁ r₂ r₃).part sub = some x → HeldList T₃ m₃ mmap₃ x (info.pages sub) (F sub)) ∧
        ∀ a b, a ≠ b → (SupplyBlock.mk r₁ r₂ r₃).part a ≠ none → (SupplyBlock.mk r₁ r₂ r₃).part b ≠ none →
          Disjoint (F a) (F b)) ∧
      ∀ x, r₁ = some x →
        HeldList T₃ m₃ mmap₃ x info.codePages (memMapSource.taken (frameCount info.codePages) mmap) := by
  obtain ⟨hwf₁, hs₁, hroot₁, -⟩ := h₁.next hwf hs hroot
  obtain ⟨hwf₂, hs₂, hroot₂, -⟩ := h₂.next hwf₁ hs₁ hroot₁
  -- what comes after a list leaves it as it is
  have hcode : ∀ x, r₁ = some x →
      HeldList T₃ m₃ mmap₃ x info.codePages (memMapSource.taken (frameCount info.codePages) mmap) := fun x hx =>
    ((h₁.heldList hs.ok hx).run h₂.run hwf₁ hs₁ hroot₁).run h₃.run hwf₂ hs₂ hroot₂
  have hmapping : ∀ x, r₂ = some x →
      HeldList T₃ m₃ mmap₃ x info.mappingPages (memMapSource.taken (frameCount info.mappingPages) mmap₁) := fun x hx =>
    (h₂.heldList hs₁.ok hx).run h₃.run hwf₂ hs₂ hroot₂
  have hstack : ∀ x, r₃ = some x →
      HeldList T₃ m₃ mmap₃ x info.stackPages (memMapSource.taken (frameCount info.stackPages) mmap₂) := fun x hx =>
    h₃.heldList hs₂.ok hx
  -- and takes none of its frames
  have hcm : r₁ ≠ none → r₂ ≠ none → Disjoint (memMapSource.taken (frameCount info.codePages) mmap)
      (memMapSource.taken (frameCount info.mappingPages) mmap₁) := fun h h' =>
    h₁.disjoint_later h subset_rfl (h₂.servesList h') hs₁.ok
  have hms : r₂ ≠ none → r₃ ≠ none → Disjoint (memMapSource.taken (frameCount info.mappingPages) mmap₁)
      (memMapSource.taken (frameCount info.stackPages) mmap₂) := fun h h' =>
    h₂.disjoint_later h subset_rfl (h₃.servesList h') hs₂.ok
  have hcs : r₁ ≠ none → r₃ ≠ none → Disjoint (memMapSource.taken (frameCount info.codePages) mmap)
      (memMapSource.taken (frameCount info.stackPages) mmap₂) := fun h h' =>
    h₁.disjoint_later h (h₂.run.free hwf₁ hs₁ hroot₁) (h₃.servesList h') hs₂.ok
  refine ⟨⟨fun
    | .code => memMapSource.taken (frameCount info.codePages) mmap
    | .mapping => memMapSource.taken (frameCount info.mappingPages) mmap₁
    | .stack => memMapSource.taken (frameCount info.stackPages) mmap₂, ?_, ?_⟩, hcode⟩
  · intro sub x hx
    cases sub with
    | code => exact hcode x hx
    | mapping => exact hmapping x hx
    | stack => exact hstack x hx
  · intro a b hne ha hb
    cases a <;> cases b
    · exact absurd rfl hne
    · exact hcm ha hb
    · exact hcs ha hb
    · exact (hcm hb ha).symm
    · exact absurd rfl hne
    · exact hms ha hb
    · exact (hcs hb ha).symm
    · exact (hms hb ha).symm
    · exact absurd rfl hne

section
variable (hwf : T.WF m) (hs : T.Apart memMapSource mmap) (hroot : T.level root = 4) (hpl : T.Placed m)
  (hpre : T.pre root = 0) (hclear : ∀ sub, Clear m (subSpaceToAddr sub) 3 root)
  (h₁ : RegionFed .code root info.codePages T m mmap t r₁ T₁ m₁ mmap₁ t₁)
include hwf hs hroot hpl hpre hclear h₁

/-- The code changes nothing on the way to the mappings, -/
theorem regionFrames_mapping (n : Nat) : regionFrames m₁ root .mapping n = regionFrames m root .mapping n :=
  h₁.missing_other hwf hs hroot hpl hpre (by decide) (hclear .mapping) n

/-- and neither of them on the way to the stack. -/
theorem regionFrames_stack (h₂ : RegionFed .mapping root info.mappingPages T₁ m₁ mmap₁ t₁ r₂ T₂ m₂ mmap₂ t₂) (n : Nat) :
    regionFrames m₂ root .stack n = regionFrames m root .stack n := by
  obtain ⟨hwf₁, hs₁, hroot₁, hpre₁, -, hclear₁⟩ := h₁.next hwf hs hroot
  have hpl₁ := h₁.run.placed hwf hs hroot hpl
  exact (h₂.missing_other hwf₁ hs₁ hroot₁ hpl₁ (hpre₁.trans hpre) (by decide) (hclear₁ _ (hclear .stack)) n).trans
    (h₁.missing_other hwf hs hroot hpl hpre (by decide) (hclear .stack) n)

/-- Everything is supplied exactly when there is everything. -/
theorem regions_served (h₂ : RegionFed .mapping root info.mappingPages T₁ m₁ mmap₁ t₁ r₂ T₂ m₂ mmap₂ t₂)
    (h₃ : RegionFed .stack root info.stackPages T₂ m₂ mmap₂ t₂ r₃ T₃ m₃ mmap₃ t₃) :
    (∀ sub, (SupplyBlock.mk r₁ r₂ r₃).part sub ≠ none) ↔ CanSupply m mmap root info := by
  have hframes₂ := regionFrames_mapping hwf hs hroot hpl hpre hclear h₁ info.mappingPages
  have hframes₃ := regionFrames_stack hwf hs hroot hpl hpre hclear h₁ h₂ info.stackPages
  constructor
  · intro hall
    have hr₁ := Option.isSome_iff_ne_none.2 (hall .code)
    have hr₂ := Option.isSome_iff_ne_none.2 (hall .mapping)
    have hr₃ := Option.isSome_iff_ne_none.2 (hall .stack)
    obtain ⟨hfew₁, hserves₁⟩ := h₁.served.1 hr₁
    obtain ⟨hfew₂, hserves₂⟩ := h₂.served.1 hr₂
    obtain ⟨hfew₃, hserves₃⟩ := h₃.served.1 hr₃
    constructor
    · intro sub
      cases sub with
      | code => exact hfew₁
      | mapping => exact hfew₂
      | stack => exact hfew₃
    · refine (memMapSource.serves_add _ _ _).2 ⟨hserves₁, (memMapSource.serves_add _ _ _).2 ?_⟩
      rw [← h₁.after hr₁, ← hframes₂, ← h₂.after hr₂, ← hframes₃]
      exact ⟨hserves₂, hserves₃⟩
  · rintro ⟨hfew, hserves⟩
    obtain ⟨hr₁, hrest₁⟩ := h₁.rest (hfew .code) hserves
    rw [← hframes₂] at hrest₁
    obtain ⟨hr₂, hrest₂⟩ := h₂.rest (hfew .mapping) hrest₁
    rw [← hframes₃] at hrest₂
    have hr₃ := h₃.served.2 ⟨hfew .stack, hrest₂⟩
    intro sub
    cases sub with
    | code => exact Option.isSome_iff_ne_none.1 hr₁
    | mapping => exact Option.isSome_iff_ne_none.1 hr₂
    | stack => exact Option.isSome_iff_ne_none.1 hr₃

/-- When no frame is left for the list of the mappings, there was not everything. -/
theorem not_canSupply_mapping (hfail : (memMapSource.alloc mmap₁).1 = frameAllocFailed) :
    ¬CanSupply m mmap root info := by
  intro hcan
  have hrest := (h₁.rest (hcan.1 .code) hcan.2).2
  rw [← regionFrames_mapping hwf hs hroot hpl hpre hclear h₁] at hrest
  exact not_serves_regionFrames hfail _ hrest

/-- Nor when none is left for that of the stack. -/
theorem not_canSupply_stack (h₂ : RegionFed .mapping root info.mappingPages T₁ m₁ mmap₁ t₁ r₂ T₂ m₂ mmap₂ t₂)
    (hfail : (memMapSource.alloc mmap₂).1 = frameAllocFailed) : ¬CanSupply m mmap root info := by
  intro hcan
  have hrest := (h₁.rest (hcan.1 .code) hcan.2).2
  rw [← regionFrames_mapping hwf hs hroot hpl hpre hclear h₁] at hrest
  have hrest' := (h₂.rest (hcan.1 .mapping) hrest).2
  rw [← regionFrames_stack hwf hs hroot hpl hpre hclear h₁ h₂] at hrest'
  exact not_serves_regionFrames hfail 0 hrest'

end

/-- The three steps together. -/
theorem supplied_of_regions (hwf : T.WF m) (hs : T.Apart memMapSource mmap) (hroot : T.level root = 4)
    (hclear : ∀ sub, Clear m (subSpaceToAddr sub) 3 root)
    (h₁ : RegionFed .code root info.codePages T m mmap t r₁ T₁ m₁ mmap₁ t₁)
    (h₂ : RegionFed .mapping root info.mappingPages T₁ m₁ mmap₁ t₁ r₂ T₂ m₂ mmap₂ t₂)
    (h₃ : RegionFed .stack root info.stackPages T₂ m₂ mmap₂ t₂ r₃ T₃ m₃ mmap₃ t₃) :
    Supplied root info T m mmap t ⟨r₁, r₂, r₃⟩ T₃ m₃ mmap₃ t₃ := by
  obtain ⟨hlists, hcode⟩ := regions_lists hwf hs hroot h₁ h₂ h₃
  refine ⟨?_, ?_, hlists, fun x hx => ⟨h₁.first x hx, hcode x hx⟩, ?_⟩
  · refine ((h₁.run.mono ?_).trans (h₂.run.mono ?_)).trans (h₃.run.mono ?_)
    · exact fun va hva => ⟨.code, hva⟩
    · exact fun va hva => ⟨.mapping, hva⟩
    · exact fun va hva => ⟨.stack, hva⟩
  · rw [h₃.grown.same, h₂.grown.same, h₁.grown.same]
  · exact fun hpl hpre => regions_served hwf hs hroot hpl hpre hclear h₁ h₂ h₃

end

theorem threadSupplyNewMem_spec {info : AllocationInfo} {perms : PermissionInfo} {p : TcbPtr} {root : Nat} {k : Kernel}
    {T : Tables} (hwf : T.WF k.mem) (hs : T.Apart memMapSource k.mmap) (hroot : T.level root = 4)
    (htable : (k.sched.tcbs p).pageTable = root) (hmemory : ∀ sub, (k.sched.tcbs p).memory sub = 0)
    (hclear : ∀ sub, Clear k.mem (subSpaceToAddr sub) 3 root) :
    (∃ r supply m' mmap' T' t', threadSupplyNewMem (some p) info perms k =
        .ok (r, supply, { k with mem := m', mmap := mmap', sched := k.sched.modify p fun _ => t' }) ∧
      Supplied root info T k.mem k.mmap (k.sched.tcbs p) supply T' m' mmap' t') ∨
    (∃ e, threadSupplyNewMem (some p) info perms k = .error e) ∧
      (T.Placed k.mem → T.pre root = 0 → ¬CanSupply k.mem k.mmap root info) := by
  unfold threadSupplyNewMem
  -- the code
  rcases @threadSupplyNewMemRegion_spec .code p root info.codePages perms.codePerms info.codePages k T hwf hs hroot
      htable (hmemory .code) (hclear .code) with
    ⟨r₁, m₁, mmap₁, T₁, t₁, he₁, h₁⟩ | ⟨⟨-, hfail⟩, e, he⟩
  rotate_left
  · right
    rw [he]
    exact ⟨⟨e, rfl⟩, fun _ _ hcan => not_serves_regionFrames hfail _ hcan.2⟩
  obtain ⟨hwf₁, hs₁, hroot₁, hpre₁, htable₁, hclear₁⟩ := h₁.next hwf hs hroot
  have hmapping₁ : t₁.memory .mapping = 0 := (h₁.grown.others _ (by decide)).trans (hmemory _)
  have hstack₁ : t₁.memory .stack = 0 := (h₁.grown.others _ (by decide)).trans (hmemory _)
  -- the mappings
  rcases @threadSupplyNewMemRegion_spec .mapping p root info.mappingPages perms.mappingPerms info.mappingPageSize
    { k with mem := m₁, mmap := mmap₁, sched := k.sched.modify p fun _ => t₁ } T₁ hwf₁ hs₁ hroot₁
    (by rw [Sched.tcbs_modify_self, htable₁, htable]) (by rw [Sched.tcbs_modify_self, hmapping₁]) (hclear₁ _ (hclear .mapping)) with
    ⟨r₂, m₂, mmap₂, T₂, t₂, he₂, h₂⟩ | ⟨⟨-, hfail⟩, e, he⟩
  rotate_left
  · right
    rw [he₁]
    dsimp only [bind, Except.bind]
    rw [he]
    exact ⟨⟨e, rfl⟩, fun hpl hpre => not_canSupply_mapping hwf hs hroot hpl hpre hclear h₁ hfail⟩
  rw [Sched.tcbs_modify_self] at h₂
  dsimp only at he₂ h₂
  rw [Sched.modify_modify] at he₂
  obtain ⟨hwf₂, hs₂, hroot₂, -, htable₂, hclear₂⟩ := h₂.next hwf₁ hs₁ hroot₁
  have hstack₂ : t₂.memory .stack = 0 := (h₂.grown.others _ (by decide)).trans hstack₁
  -- the stack
  rcases @threadSupplyNewMemRegion_spec .stack p root info.stackPages perms.stackPerms info.stackPageSize
    { k with mem := m₂, mmap := mmap₂, sched := k.sched.modify p fun _ => t₂ } T₂ hwf₂ hs₂ hroot₂
    (by rw [Sched.tcbs_modify_self, htable₂, htable₁, htable]) (by rw [Sched.tcbs_modify_self, hstack₂]) (hclear₂ _ (hclear₁ _ (hclear .stack))) with
    ⟨r₃, m₃, mmap₃, T₃, t₃, he₃, h₃⟩ | ⟨⟨-, hfail⟩, e, he⟩
  rotate_left
  · right
    rw [he₁]
    dsimp only [bind, Except.bind]
    rw [he₂]
    dsimp only
    rw [he]
    exact ⟨⟨e, rfl⟩, fun hpl hpre => not_canSupply_stack hwf hs hroot hpl hpre hclear h₁ h₂ hfail⟩
  rw [Sched.tcbs_modify_self] at h₃
  dsimp only at he₃ h₃
  rw [Sched.modify_modify] at he₃
  left
  refine ⟨if r₁ = none ∨ r₂ = none ∨ r₃ = none then -1 else 0, ⟨r₁, r₂, r₃⟩, m₃, mmap₃, T₃, t₃, ?_,
    supplied_of_regions hwf hs hroot hclear h₁ h₂ h₃⟩
  rw [he₁]
  dsimp only [bind, Except.bind]
  rw [he₂]
  dsimp only
  rw [he₃]
  rfl

end Icarus.Processes
