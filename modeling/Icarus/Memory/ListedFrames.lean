/-
Lists of frames and the frame map: what a list that `ialloc_frames` returns names, whether `idealloc_frames` gives
that back, and what a call that fails has taken.
-/
import Icarus.Memory.FrameRelease

namespace Icarus.Memory

open Icarus.Base

/-! ## Lists and their release -/

section
variable {pageType info count : Nat} {m m' : Mem} {mmap mmap' : MemMap}

theorem free_finite (mmap : MemMap) : mmap.free.Finite := by
  have hall : mmap.free ⊆ ⋃ r ∈ {r | r ∈ mmap.regions}, (fun k => r.startAddr + 4096 * k) '' Set.Iio r.frames := by
    rintro _ ⟨r, hr, k, hk, rfl, -⟩
    exact Set.mem_biUnion hr ⟨k, hk, rfl⟩
  exact ((mmap.regions.finite_toSet).biUnion fun r _ => (Set.finite_Iio r.frames).image _).subset hall

/-- The frames of page `i` of the list at `info`. -/
def listedBlock (pageType : Nat) (m : Mem) (info i : Nat) : Set Nat :=
  blockFrames (pageAddr m info i, pageTypeToSize pageType / defaultPageSize)

theorem pageAddr_mem_listedBlock (pageType : Nat) (m : Mem) (info i : Nat) :
    pageAddr m info i ∈ listedBlock pageType m info i := by
  refine ⟨0, ?_, rfl⟩
  show 0 < pageTypeToSize pageType / defaultPageSize
  unfold pageTypeToSize
  split_ifs <;> decide

/-- The list at `info` names `count` blocks of the type's size apart from each other, that were free and are used. -/
structure ListsBlocks (count pageType : Nat) (m : Mem) (info : Nat) (mmap mmap' : MemMap) : Prop where
  pages : pageCount m info = count
  bytes : pageSize m info = pageTypeToSize pageType
  apart : ∀ i j, i < count → j < count → i ≠ j →
    Disjoint (listedBlock pageType m info i) (listedBlock pageType m info j)
  free : ∀ i, i < count → listedBlock pageType m info i ⊆ mmap.free
  used : ∀ i, i < count → listedBlock pageType m info i ⊆ mmap'.used

/-- A list that is returned names the blocks asked for, and giving it back restores the map. -/
def ListsInverse (count pageType : Nat) (m : Mem) (mmap : MemMap) : Prop :=
  ∀ info m' mmap', iallocFrames count pageType m mmap = .ok (some info, m', mmap') →
    ListsBlocks count pageType m' info mmap mmap' ∧
      (ideallocFrames m' info mmap').1 = 0 ∧ mmap.Restored (ideallocFrames m' info mmap').2

theorem listsInverse_default (ht : pageTypeToSize pageType = defaultPageSize) (h : WF mmap) (hpos : 1 ≤ count) :
    ListsInverse count pageType m mmap := by
  intro info m' mmap' he
  obtain ⟨hlist, htakes, -⟩ := iallocFrames_takes ht h he
  have hcount : frameCount count = count := Nat.max_eq_right hpos
  have hsingle : ∀ i, listedBlock pageType m' info i = {pageAddr m' info i} := by
    intro i
    unfold listedBlock
    rw [ht]
    ext a
    exact mem_blockFrames_one
  rw [hcount] at htakes
  obtain ⟨hwf, hsame, hfree, honce, hleft⟩ := htakes
  simp only [Nat.zero_add] at hfree honce hleft
  have hheld : ∀ i, i < count → pageAddr m' info i ∈ mmap'.frames ∧ pageAddr m' info i ∉ mmap'.free := by
    intro i hi
    refine ⟨?_, fun hin => ((hleft _).1 hin).2 i hi rfl⟩
    rw [hsame.frames]
    exact free_subset_frames (hfree i hi)
  constructor
  · -- every frame is a block of its own
    refine ⟨hlist.count, hlist.size.trans ht.symm, ?_, ?_, ?_⟩
    · intro i j hi hj hne
      rw [hsingle, hsingle, Set.disjoint_singleton]
      exact fun heq => hne (honce i j hi hj heq)
    · intro i hi
      rw [hsingle, Set.singleton_subset_iff]
      exact hfree i hi
    · intro i hi
      rw [hsingle, Set.singleton_subset_iff]
      exact mem_used_of_not_free (hheld i hi).1 (hheld i hi).2
  · have hlists : Lists m' info count {f | ∃ j, j < frameCount count ∧ f = pageAddr m' info j} := by
      refine ⟨hlist, fun f => Iff.rfl, ?_⟩
      rw [hcount]
      exact honce
    obtain ⟨mmap₂, hde, hwf₂, hsame₂, hback⟩ := ideallocFrames_spec hlists hwf (by
      rintro f ⟨j, hj, rfl⟩
      exact hheld j (hcount ▸ hj))
    have hmap : mmap₂ = mmap := by
      -- maps of the same frames are the same when the same frames are free
      apply (hsame.trans hsame₂).eq_of_free h hwf₂
      rw [hback]
      ext f
      rw [Set.mem_union, hleft f, hcount]
      constructor
      · rintro (⟨hf, -⟩ | ⟨j, hj, rfl⟩)
        · exact hf
        · exact hfree j hj
      · intro hf
        by_cases hany : ∃ j, j < count ∧ f = pageAddr m' info j
        · exact .inr hany
        · push Not at hany
          exact .inl ⟨hf, hany⟩
    rw [hde, hmap]
    exact ⟨rfl, MemMap.Restored.refl mmap⟩

/-! ## Larger pages -/

/-- The number of frames of a larger page is zero in the 8 bits it is kept in. -/
theorem mapAllocFrame_large (ht : pageType = 1 ∨ pageType = 2) :
    mapAllocFrame mmap pageType = mapAllocFrameContiguous mmap 0 := by
  unfold mapAllocFrame
  rcases ht with rfl | rfl <;> rfl

theorem iallocRest_of_repeats (info : Nat) {a : Nat} (hrepeat : mapAllocFrame mmap pageType = (a, mmap))
    (hne : a ≠ frameAllocFailed) :
    ∀ (remaining i : Nat) (m : Mem), ∃ m', iallocRest pageType info remaining i m mmap = (true, m', mmap)
  | 0, _, m => ⟨m, rfl⟩
  | remaining + 1, i, m => by
    unfold iallocRest
    rw [hrepeat]
    dsimp only
    rw [if_neg hne]
    exact iallocRest_of_repeats info hrepeat hne remaining (i + 1) _

/-- A call that changes nothing serves all of the list. -/
theorem iallocFrames_of_repeats {a : Nat} (hrepeat : mapAllocFrame mmap pageType = (a, mmap))
    (hne : a ≠ frameAllocFailed) (hcount : count ≤ 510) :
    ∃ m', iallocFrames count pageType m mmap = .ok (some a, m', mmap) := by
  unfold iallocFrames
  rw [if_neg (by omega), hrepeat]
  dsimp only
  rw [if_neg hne]
  obtain ⟨m', hloop⟩ := iallocRest_of_repeats a hrepeat hne (count - 1) 1
    (setPageSize (setPageAddr (setPageCount m a count) a 0 a) a (pageTypeToSize pageType))
  rw [hloop]
  exact ⟨m', rfl⟩

theorem not_listsInverse_large (ht : pageType = 1 ∨ pageType = 2) (h : WF mmap) (hpos : 1 ≤ count)
    (hcount : count ≤ 510) (hne : mmap.regions ≠ []) : ¬ListsInverse count pageType m mmap := by
  intro hinv
  obtain ⟨r, rest, hr⟩ := List.exists_cons_of_ne_nil hne
  have hmem : r ∈ mmap.regions := by simp [hr]
  have haddr := (h.region r hmem).addr
  have hnonempty := (h.region r hmem).nonempty
  have hrepeat : mapAllocFrame mmap pageType = (r.startAddr, mmap) := by
    rw [mapAllocFrame_large ht]
    exact mapAlloc_zero h hr
  obtain ⟨m', he⟩ := iallocFrames_of_repeats (m := m) hrepeat (by unfold frameAllocFailed; omega) hcount
  obtain ⟨hblocks, -⟩ := hinv _ _ _ he
  -- nothing was marked, so the first frame named is free or used before and after
  have hfirst := pageAddr_mem_listedBlock pageType m' r.startAddr 0
  exact Set.disjoint_left.1 (free_disjoint_used h) (hblocks.free 0 hpos hfirst) (hblocks.used 0 hpos hfirst)

/-- `ialloc_frames` and `idealloc_frames` are inverse exactly for 4 KiB pages, or where there is no memory at all: the
number of frames of a larger page does not fit its 8 bits. -/
theorem lists_inverse_iff (h : WF mmap) (hpos : 1 ≤ count) (hcount : count ≤ 510) :
    ListsInverse count pageType m mmap ↔ pageType ≠ 1 ∧ pageType ≠ 2 ∨ mmap.regions = [] := by
  constructor
  · intro hinv
    by_contra hno
    rw [not_or, not_and_or, not_not, not_not] at hno
    exact not_listsInverse_large hno.1 h hpos hcount hno.2 hinv
  · rintro (⟨h1, h2⟩ | hempty)
    · refine listsInverse_default ?_ h hpos
      unfold pageTypeToSize
      rw [if_neg h2, if_neg h1]
    · intro info m' mmap' he
      have hfail : ∀ t, mapAllocFrame mmap t = (frameAllocFailed, mmap) := by
        intro t
        unfold mapAllocFrame mapAllocFrameContiguous
        rw [hempty]
        rfl
      unfold iallocFrames at he
      rw [if_neg (by omega), hfail] at he
      simp at he

theorem lists_inverse_iff_threeFrames :
    ListsInverse 2 0 (fun _ => 0) threeFrames ↔ (0 ≠ 1 ∧ 0 ≠ 2) ∨ threeFrames.regions = [] :=
  lists_inverse_iff threeFrames_wf (by decide) (by decide)

/-- A list of one 2 MiB page in a map of three frames: the call succeeds. -/
theorem huge_page_not_inverse : ¬ListsInverse 1 1 (fun _ => 0) threeFrames := by
  intro hinv
  have hrepeat : mapAllocFrame threeFrames 1 = (0x100000, threeFrames) := mapAlloc_zero threeFrames_wf rfl
  obtain ⟨m', he⟩ := iallocFrames_of_repeats (m := fun _ => 0) hrepeat (by decide) (show 1 ≤ 510 by decide)
  obtain ⟨hblocks, -⟩ := hinv _ _ _ he
  have hfirst := pageAddr_mem_listedBlock 1 m' 0x100000 0
  exact Set.disjoint_left.1 (free_disjoint_used threeFrames_wf) (hblocks.free 0 (by decide) hfirst)
    (hblocks.used 0 (by decide) hfirst)

/-! ## Lists that cannot be completed -/

/-- The next `n` calls of `map_alloc_frame` all return an address. -/
def Supplies (pageType : Nat) : (n : Nat) → MemMap → Prop
  | 0, _ => True
  | n + 1, mmap =>
    (mapAllocFrame mmap pageType).1 ≠ frameAllocFailed ∧ Supplies pageType n (mapAllocFrame mmap pageType).2

/-- The call writes through no address that stands for a missing frame, and one that fails leaves the map as it was. -/
def LeaksNothing (count pageType : Nat) (m : Mem) (mmap : MemMap) : Prop :=
  ∃ r m' mmap', iallocFrames count pageType m mmap = .ok (r, m', mmap') ∧ (r = none → mmap.Restored mmap')

/-- The free frames that the map counts. -/
def MemMap.countedFree (mmap : MemMap) : Nat := (mmap.regions.map (·.freeFrames)).sum

theorem MemMap.Restored.countedFree (h : mmap.Restored mmap') : mmap'.countedFree = mmap.countedFree := by
  unfold MemMap.countedFree
  rw [h.2]

/-- A range is marked in no region, or one region counts its frames as taken. -/
theorem setMemRegion_countedFree (mmap : MemMap) (start stop : Nat) : (setMemRegion mmap start stop).2 = mmap ∨
    ((setMemRegion mmap start stop).2.countedFree + sub64 stop start / defaultPageSize) % 2 ^ 64 =
      mmap.countedFree % 2 ^ 64 := by
  unfold setMemRegion updateRange
  split_ifs
  · exact .inl rfl
  cases hidx : mmap.regions.findIdx? (·.holds start stop) with
  | none => exact .inl rfl
  | some i =>
    right
    have hi := (List.findIdx?_eq_some_iff_getElem.1 hidx).1
    have hsplit : mmap.regions = mmap.regions.take i ++ mmap.regions[i] :: mmap.regions.drop (i + 1) := by simp
    dsimp only
    rw [List.getD_eq_getElem _ _ hi]
    generalize mmap.regions[i] = r at *
    generalize sub64 stop start / defaultPageSize = units
    unfold MemMap.countedFree
    dsimp only
    rw [List.set_eq_take_append_cons_drop, if_pos hi]
    conv_rhs => rw [hsplit]
    simp only [List.map_append, List.map_cons, List.sum_append, List.sum_cons]
    unfold sub64 u64
    omega

theorem findFrames_lt {data : Mem} {n start : Nat} : ∀ {regions : List MemRegion},
    findFrames data n regions = some start → start < 2 ^ 64
  | [], h => by cases h
  | r :: regions, h => by
    unfold findFrames at h
    split_ifs at h
    · exact findFrames_lt h
    · cases hs : scanWords data r.bitmapStartAddr n r.qwordCount 0 0 0 with
      | none =>
        rw [hs] at h
        exact findFrames_lt h
      | some k =>
        rw [hs] at h
        cases h
        exact u64_lt _

/-- A call for a 4 KiB page changes nothing, or one frame is counted as taken. -/
theorem mapAllocFrame_countedFree (ht : pageTypeToSize pageType = defaultPageSize) (mmap : MemMap) :
    (mapAllocFrame mmap pageType).2 = mmap ∨
      ((mapAllocFrame mmap pageType).2.countedFree + 1) % 2 ^ 64 = mmap.countedFree % 2 ^ 64 := by
  unfold mapAllocFrame mapAllocFrameContiguous
  have hunits : pageTypeToSize pageType / defaultPageSize % 2 ^ 8 = 1 := by simp [ht, defaultPageSize]
  rw [hunits]
  cases findFrames mmap.bitmap.data 1 mmap.regions with
  | none => exact .inl rfl
  | some start =>
    have hone : sub64 (add64 start (mul64 1 defaultPageSize)) start / defaultPageSize = 1 := by
      unfold sub64 add64 mul64 u64 defaultPageSize
      omega
    have hset := setMemRegion_countedFree mmap start (add64 start (mul64 1 defaultPageSize))
    rwa [hone] at hset

/-- A call for a larger page changes nothing, whatever it returns. -/
theorem mapAllocFrame_large_same (ht : pageType = 1 ∨ pageType = 2)
    (hfree : ∀ r ∈ mmap.regions, r.freeFrames < 2 ^ 64) :
    (mapAllocFrame mmap pageType).2 = mmap := by
  rw [mapAllocFrame_large ht]
  unfold mapAllocFrameContiguous
  cases hfind : findFrames mmap.bitmap.data 0 mmap.regions with
  | none => rfl
  | some start =>
    have hlt := findFrames_lt hfind
    have hstop : add64 start (mul64 0 defaultPageSize) = start := by
      unfold mul64
      rw [Nat.zero_mul]
      exact add64_of_lt hlt
    simp only [hstop]
    exact setMemRegion_empty hlt hfree

theorem supplies_of_repeats {a : Nat} (hrepeat : mapAllocFrame mmap pageType = (a, mmap)) (hne : a ≠ frameAllocFailed) :
    ∀ n, Supplies pageType n mmap
  | 0 => trivial
  | n + 1 => by
    unfold Supplies
    rw [hrepeat]
    exact ⟨hne, supplies_of_repeats hrepeat hne n⟩

/-- The loop completes the list exactly if each call returns an address. -/
theorem iallocRest_supplies (pageType info : Nat) : ∀ (remaining i : Nat) (m : Mem) (mmap : MemMap),
    (iallocRest pageType info remaining i m mmap).1 = true ↔ Supplies pageType remaining mmap
  | 0, _, _, _ => iff_of_true rfl trivial
  | remaining + 1, i, m, mmap => by
    unfold iallocRest Supplies
    dsimp only
    split_ifs with hfail
    · exact iff_of_false (by simp) fun h => h.1 hfail
    · rw [iallocRest_supplies pageType info remaining (i + 1)]
      exact (and_iff_right hfail).symm

theorem iallocRest_countedFree (ht : pageTypeToSize pageType = defaultPageSize) (info : Nat) :
    ∀ (remaining i : Nat) (m : Mem) (mmap : MemMap), ∃ d, d ≤ remaining ∧
      ((iallocRest pageType info remaining i m mmap).2.2.countedFree + d) % 2 ^ 64 = mmap.countedFree % 2 ^ 64
  | 0, _, _, _ => ⟨0, le_rfl, rfl⟩
  | remaining + 1, i, m, mmap => by
    -- the call itself counts for one frame at most, the rest of the loop for one each
    have hcall : ∃ c, c ≤ 1 ∧
        ((mapAllocFrame mmap pageType).2.countedFree + c) % 2 ^ 64 = mmap.countedFree % 2 ^ 64 := by
      rcases mapAllocFrame_countedFree ht mmap with hsame | hone
      · exact ⟨0, by omega, by rw [hsame]; rfl⟩
      · exact ⟨1, le_rfl, hone⟩
    obtain ⟨c, hc, hfirst⟩ := hcall
    unfold iallocRest
    dsimp only
    split_ifs
    · exact ⟨c, by omega, hfirst⟩
    · obtain ⟨d, hd, hrest⟩ := iallocRest_countedFree ht info remaining (i + 1)
        (setPageAddr m info i (mapAllocFrame mmap pageType).1) (mapAllocFrame mmap pageType).2
      exact ⟨d + c, by omega, by omega⟩

theorem leaksNothing_of_supplies (h : Supplies pageType (frameCount count) mmap) :
    LeaksNothing count pageType m mmap := by
  have hcount : frameCount count = count - 1 + 1 := by
    unfold frameCount
    omega
  unfold LeaksNothing iallocFrames
  split_ifs
  · exact ⟨none, m, mmap, rfl, fun _ => MemMap.Restored.refl mmap⟩
  rw [hcount] at h
  obtain ⟨hfirst, hrest⟩ := h
  dsimp only
  rw [if_neg hfirst]
  generalize setPageSize _ _ _ = m₀
  have hloop := (iallocRest_supplies pageType (mapAllocFrame mmap pageType).1 (count - 1) 1 m₀ _).2 hrest
  rcases hr : iallocRest pageType (mapAllocFrame mmap pageType).1 (count - 1) 1 m₀ (mapAllocFrame mmap pageType).2
    with ⟨b, m₁, mmap₁⟩
  rw [hr] at hloop
  obtain rfl : b = true := hloop
  exact ⟨_, m₁, mmap₁, rfl, fun hnone => by cases hnone⟩

/-- A list that cannot be completed keeps the frames it has, or has no frame to be written into. -/
theorem not_leaksNothing (hfree : ∀ r ∈ mmap.regions, r.freeFrames < 2 ^ 64) (hcount : count ≤ 510)
    (hno : ¬Supplies pageType (frameCount count) mmap) : ¬LeaksNothing count pageType m mmap := by
  rintro ⟨r, m', mmap', he, hleak⟩
  have hframes : frameCount count = count - 1 + 1 := by
    unfold frameCount
    omega
  unfold iallocFrames at he
  rw [if_neg (by omega)] at he
  dsimp only at he
  by_cases hfail : (mapAllocFrame mmap pageType).1 = frameAllocFailed
  · rw [if_pos hfail] at he
    cases he
  rw [if_neg hfail] at he
  -- a first call without effect would be repeated for all of the list
  have heffect : (mapAllocFrame mmap pageType).2 ≠ mmap :=
    fun hsame => hno (supplies_of_repeats (Prod.ext rfl hsame) hfail _)
  have ht : pageTypeToSize pageType = defaultPageSize := by
    by_contra hne
    refine heffect (mapAllocFrame_large_same ?_ hfree)
    unfold pageTypeToSize at hne
    split_ifs at hne with h2 h1
    · exact .inr h2
    · exact .inl h1
    · exact absurd rfl hne
  have hone := (mapAllocFrame_countedFree ht mmap).resolve_left heffect
  generalize setPageSize _ _ _ = m₀ at he
  have hloop := iallocRest_supplies pageType (mapAllocFrame mmap pageType).1 (count - 1) 1 m₀
    (mapAllocFrame mmap pageType).2
  obtain ⟨d, hd, hrest⟩ := iallocRest_countedFree ht (mapAllocFrame mmap pageType).1 (count - 1) 1 m₀
    (mapAllocFrame mmap pageType).2
  rcases hr : iallocRest pageType (mapAllocFrame mmap pageType).1 (count - 1) 1 m₀ (mapAllocFrame mmap pageType).2
    with ⟨b, m₁, mmap₁⟩
  rw [hr] at he hloop hrest
  cases b with
  | true =>
    refine hno ?_
    rw [hframes]
    exact ⟨hfail, hloop.1 rfl⟩
  | false =>
    cases he
    have hback := (hleak rfl).countedFree
    dsimp only at hrest
    omega

/-- On a well-formed map single frames are supplied as long as there are free ones. -/
theorem supplies_default_iff (ht : pageTypeToSize pageType = defaultPageSize) : ∀ (n : Nat) {mmap : MemMap}, WF mmap →
    (Supplies pageType n mmap ↔ n ≤ mmap.free.ncard)
  | 0, _, _ => iff_of_true trivial (Nat.zero_le _)
  | n + 1, mmap, h => by
    unfold Supplies
    rcases mapAllocFrame_taken ht h with ⟨he, hempty⟩ | ⟨a, mmap₁, he, hne, hin, hwf₁, -, hleft⟩
    · rw [he, hempty, Set.ncard_empty]
      exact iff_of_false (fun hs => hs.1 rfl) (by omega)
    · rw [he, supplies_default_iff ht n hwf₁, hleft, Set.ncard_sdiff_singleton_of_mem hin]
      have hpos : 0 < mmap.free.ncard := (Set.ncard_pos (free_finite mmap)).2 ⟨a, hin⟩
      constructor
      · rintro ⟨-, hn⟩
        omega
      · intro hn
        exact ⟨hne, by omega⟩

theorem supplies_large_iff (ht : pageType = 1 ∨ pageType = 2) (h : WF mmap) {n : Nat} (hn : 0 < n) :
    Supplies pageType n mmap ↔ mmap.regions ≠ [] := by
  constructor
  · intro hs hempty
    obtain ⟨k, rfl⟩ := Nat.exists_eq_succ_of_ne_zero hn.ne'
    refine hs.1 ?_
    rw [mapAllocFrame_large ht]
    unfold mapAllocFrameContiguous
    rw [hempty]
    rfl
  · intro hne
    obtain ⟨r, rest, hr⟩ := List.exists_cons_of_ne_nil hne
    have haddr := (h.region r (by simp [hr])).addr
    have hrepeat : mapAllocFrame mmap pageType = (r.startAddr, mmap) := by
      rw [mapAllocFrame_large ht]
      exact mapAlloc_zero h hr
    have hpos := (h.region r (by simp [hr])).nonempty
    exact supplies_of_repeats hrepeat (by unfold frameAllocFailed; omega) n

/-- The calls of `map_alloc_frame` for a list succeed: on a well-formed map, for 4 KiB pages as many frames are free,
and for larger pages, which take none, there is any memory. -/
theorem supplies_iff (h : WF mmap) : Supplies pageType (frameCount count) mmap ↔
    if pageType = 1 ∨ pageType = 2 then mmap.regions ≠ [] else max 1 count ≤ mmap.free.ncard := by
  split_ifs with ht
  · apply supplies_large_iff ht h
    unfold frameCount
    omega
  · rw [not_or] at ht
    apply supplies_default_iff _ _ h
    unfold pageTypeToSize
    rw [if_neg ht.2, if_neg ht.1]

/-- A call of `ialloc_frames` leaks nothing exactly when it is refused at once or completed: nothing is undone, and the
first address is not checked. -/
theorem leaks_nothing_iff (hfree : ∀ r ∈ mmap.regions, r.freeFrames < 2 ^ 64) :
    (LeaksNothing count pageType m mmap ↔ 510 < count ∨ Supplies pageType (frameCount count) mmap) ∧
      (WF mmap → (Supplies pageType (frameCount count) mmap ↔
        if pageType = 1 ∨ pageType = 2 then mmap.regions ≠ [] else max 1 count ≤ mmap.free.ncard)) := by
  refine ⟨?_, supplies_iff⟩
  constructor
  · intro hleak
    by_contra hno
    rw [not_or] at hno
    exact not_leaksNothing hfree (by omega) hno.2 hleak
  · rintro (hrefused | hs)
    · refine ⟨none, m, mmap, ?_, fun _ => MemMap.Restored.refl mmap⟩
      unfold iallocFrames
      rw [if_pos hrefused]
    · exact leaksNothing_of_supplies hs

theorem leaks_nothing_iff_threeFrames : LeaksNothing 3 0 (fun _ => 0) threeFrames ↔
    510 < 3 ∨ Supplies 0 (frameCount 3) threeFrames := by
  refine (leaks_nothing_iff ?_).1
  intro r hr
  rw [List.mem_singleton.1 hr]
  decide

/-- Four pages of three frames: the call fails, and the three stay taken. -/
theorem three_frames_leak : ¬LeaksNothing 4 0 (fun _ => 0) threeFrames := by
  rintro ⟨r, m', mmap', he, hleak⟩
  have hrun : okAnd (iallocFrames 4 0 (fun _ => 0) threeFrames)
      (fun r => r.1.isNone && r.2.2.regions.map (·.freeFrames) == [0]) = true := by decide +kernel
  rw [he] at hrun
  obtain ⟨_, hok, hall⟩ := okAnd_eq_true.1 hrun
  cases hok
  obtain ⟨hnone, hcounts⟩ := Bool.and_eq_true_iff.1 hall
  have hkept := (hleak (Option.isNone_iff_eq_none.1 hnone)).2
  rw [beq_iff_eq.1 hcounts] at hkept
  revert hkept
  decide

end

end Icarus.Memory
