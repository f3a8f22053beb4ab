/-
The frames of a list and their release: which frames `ialloc_frames` writes into a list, and that
`idealloc_frames` gives exactly these back.
-/
import Icarus.Memory.FrameExact
import Icarus.Memory.FrameLists

namespace Icarus.Memory

open Icarus.Base

/-! ## The frames given out in a row -/

namespace FrameSource

variable {σ : Type} (src : FrameSource σ)

/-- What the call after `n` calls gives out. -/
def nth (n : Nat) (s : σ) : Nat := (src.alloc (src.after n s)).1

/-- The frames the next `n` calls give out. -/
def taken (n : Nat) (s : σ) : Set Nat := {f | ∃ j, j < n ∧ f = src.nth j s}

variable {src} {s : σ} {n : Nat}

theorem after_succ (n : Nat) (s : σ) : src.after (n + 1) s = (src.alloc (src.after n s)).2 := src.after_add n 1 s

theorem nth_zero {f : Nat} {s' : σ} (h : src.alloc s = (f, s')) : src.nth 0 s = f := congrArg Prod.fst h

theorem nth_succ {f : Nat} {s' : σ} (h : src.alloc s = (f, s')) (j : Nat) : src.nth (j + 1) s = src.nth j s' := by
  show (src.alloc (src.after j (src.alloc s).2)).1 = _
  rw [h]
  rfl

theorem Serves.nth_mem (h : src.Serves n s) (hok : src.Ok s) {j : Nat} (hj : j < n) :
    src.nth j s ∈ src.free (src.after j s) ∧ src.nth j s ∉ src.free (src.after (j + 1) s) := by
  have hserves : src.Serves (j + (n - j)) s := by rwa [Nat.add_sub_cancel' (by omega)]
  obtain ⟨k, hk⟩ : ∃ k, n - j = k + 1 := ⟨n - j - 1, by omega⟩
  rw [serves_add, hk] at hserves
  rw [after_succ]
  rcases src.fresh _ (src.ok_after hok j) with hf | hin
  · exact absurd hf hserves.2.1
  · exact hin

theorem free_after_of_le (hok : src.Ok s) {i j : Nat} (h : i ≤ j) :
    src.free (src.after j s) ⊆ src.free (src.after i s) := by
  rw [← Nat.add_sub_cancel' h, src.after_add]
  exact src.free_after (src.ok_after hok i) _

/-- The frames were free and are not any more. -/
theorem Serves.taken_free (h : src.Serves n s) (hok : src.Ok s) {f : Nat} (hf : f ∈ src.taken n s) :
    f ∈ src.free s ∧ f ∉ src.free (src.after n s) := by
  obtain ⟨j, hj, rfl⟩ := hf
  obtain ⟨hin, hout⟩ := h.nth_mem hok hj
  exact ⟨src.free_after hok j hin, fun hfree => hout (free_after_of_le hok hj hfree)⟩

end FrameSource

/-! ## The frames of the map -/

section
variable {mmap : MemMap} {a : Nat}

theorem frames_recounted {pre post : List MemRegion} {r : MemRegion} {c : Nat} {data : Mem}
    (hr : mmap.regions = pre ++ r :: post) : (recounted mmap pre r post c data).frames = mmap.frames := by
  ext a
  unfold MemMap.frames recounted
  simp only [hr, List.mem_append, List.mem_cons, or_and_right, exists_or, exists_eq_left, Set.mem_ofPred_eq]
  exact Iff.rfl

theorem frames_alloc (hok : memMapSource.Ok mmap) : (memMapSource.alloc mmap).2.frames = mmap.frames := by
  show (mapAllocFrameContiguous mmap 1).2.frames = _
  rcases mapAllocFrameContiguous_spec hok.1 Nat.one_pos with ⟨he, -⟩ | ⟨pre, r, post, k, data, hfit, -, -, he⟩
  · rw [he]
  · rw [he]
    exact frames_recounted hfit.regions

theorem frames_after (hok : memMapSource.Ok mmap) (n : Nat) : (memMapSource.after n mmap).frames = mmap.frames := by
  induction n generalizing mmap with
  | zero => rfl
  | succ n ih => exact (ih (memMapSource.ok mmap hok)).trans (frames_alloc hok)

theorem MemMap.Low.same {mmap' : MemMap} (h : mmap.Low) (hsame : SameRegions mmap' mmap) : mmap'.Low := by
  intro r hr
  obtain ⟨r', hr', heq⟩ := hsame.mem hr
  obtain ⟨h1, h2, -⟩ := MemRegion.of_static heq
  rw [← h1, ← h2]
  exact h r' hr'

/-- A frame that is not free is given back. -/
theorem mapDeallocFrame_one (h : WF mmap) (ha : a ∈ mmap.frames) (hfree : a ∉ mmap.free) :
    ∃ mmap', mapDeallocFrame mmap (alignDown a defaultPageSize) defaultPageSize = (0, mmap') ∧ WF mmap' ∧
      SameFrames mmap mmap' ∧ mmap'.free = mmap.free ∪ {a} := by
  obtain ⟨r, hr, k, hk, rfl⟩ := ha
  have hstart := (h.region r hr).startAligned
  have haddr := (h.region r hr).addr
  have hlen := h.len_eq hr
  have halign : alignDown (r.startAddr + 4096 * k) defaultPageSize = r.startAddr + 4096 * k := by
    unfold defaultPageSize at hstart
    show alignDown (r.startAddr + 4096 * k) (2 ^ 12) = _
    rw [alignDown_two_pow (by omega) (by decide)]
    omega
  have hblock : blockFrames (r.startAddr + 4096 * k, 1) = {r.startAddr + 4096 * k} := by
    ext b
    exact mem_blockFrames_one
  have hout : Disjoint (blockFrames (r.startAddr + 4096 * k, 1)) mmap.free := by
    rw [hblock]
    exact Set.disjoint_singleton_left.2 hfree
  obtain ⟨mmap', he, hwf, hsame, hleft⟩ := mapDealloc_given h Nat.one_pos ⟨r, hr, k, rfl, hk⟩ hout
  refine ⟨mmap', ?_, hwf, hsame, ?_⟩
  · rw [halign]
    exact he
  · rw [hleft, hblock]

end

/-! ## Listed frames -/

/-- The list in `m'` is that in `m` up to page `i`. -/
structure ListsOn (m m' : Mem) (info i : Nat) : Prop where
  count : pageCount m' info = pageCount m info
  size : pageSize m' info = pageSize m info
  before : ∀ j, j < i → pageAddr m' info j = pageAddr m info j

/-- Pages `i` to `i + n` of the list at `info` are the single frames taken between `mmap` and `mmap'`. -/
structure Takes (m : Mem) (info i n : Nat) (mmap mmap' : MemMap) : Prop where
  wf : WF mmap'
  same : SameFrames mmap mmap'
  free : ∀ j, j < n → pageAddr m info (i + j) ∈ mmap.free
  once : ∀ j k, j < n → k < n → pageAddr m info (i + j) = pageAddr m info (i + k) → j = k
  left : ∀ f, f ∈ mmap'.free ↔ f ∈ mmap.free ∧ ∀ j, j < n → f ≠ pageAddr m info (i + j)

theorem Takes.subset {m : Mem} {info i n : Nat} {mmap mmap' : MemMap} (h : Takes m info i n mmap mmap') :
    mmap'.free ⊆ mmap.free := fun f hf => ((h.left f).1 hf).1

/-- A frame of the list was free, and is not any more. -/
theorem Takes.listed {m : Mem} {info n j : Nat} {mmap mmap' : MemMap} (h : Takes m info 0 n mmap mmap') (hj : j < n) :
    pageAddr m info j ∈ mmap.free ∧ pageAddr m info j ∉ mmap'.free := by
  have hin := h.free j hj
  rw [Nat.zero_add] at hin
  refine ⟨hin, fun hfree => ?_⟩
  have hne := ((h.left _).1 hfree).2 j hj
  rw [Nat.zero_add] at hne
  exact hne rfl

/-- One more frame, taken first. -/
theorem Takes.cons {m : Mem} {info i n a : Nat} {mmap mmap₁ mmap' : MemMap} (hin : a ∈ mmap.free)
    (hsame : SameFrames mmap mmap₁) (hleft : mmap₁.free = mmap.free \ {a}) (hfirst : pageAddr m info i = a)
    (hrest : Takes m info (i + 1) n mmap₁ mmap') : Takes m info i (n + 1) mmap mmap' := by
  have hstep : ∀ j, i + 1 + j = i + (j + 1) := fun j => by omega
  have hnext : ∀ j, j < n → pageAddr m info (i + (j + 1)) ∈ mmap.free ∧ pageAddr m info (i + (j + 1)) ≠ a := by
    intro j hj
    have hfree := hrest.free j hj
    rw [hstep, hleft] at hfree
    exact hfree
  refine ⟨hrest.wf, hsame.trans hrest.same, ?_, ?_, ?_⟩
  · rintro (- | j) hj
    · rwa [Nat.add_zero, hfirst]
    · exact (hnext j (by omega)).1
  · rintro (- | j) (- | k) hj hk hjk
    · rfl
    · rw [Nat.add_zero, hfirst] at hjk
      exact absurd hjk.symm (hnext k (by omega)).2
    · rw [Nat.add_zero i, hfirst] at hjk
      exact absurd hjk (hnext j (by omega)).2
    · rw [← hstep j, ← hstep k] at hjk
      rw [hrest.once j k (by omega) (by omega) hjk]
  · intro f
    rw [hrest.left f, hleft]
    constructor
    · rintro ⟨⟨hf, hfa⟩, hall⟩
      refine ⟨hf, ?_⟩
      rintro (- | j) hj
      · rwa [Nat.add_zero, hfirst]
      · rw [← hstep]
        exact hall j (by omega)
    · rintro ⟨hf, hall⟩
      refine ⟨⟨hf, ?_⟩, fun j hj => ?_⟩
      · have h0 := hall 0 (by omega)
        rwa [Nat.add_zero, hfirst] at h0
      · rw [hstep]
        exact hall (j + 1) (by omega)

section
variable {pageType info count : Nat} {m m' : Mem} {mmap mmap' : MemMap}

theorem pageAddr_setPageAddr {i j n : Nat} (hn : n < 2 ^ 64) :
    pageAddr (setPageAddr m info i n) info j = if j = i then n else pageAddr m info j := by
  unfold pageAddr setPageAddr
  split_ifs with hji
  · rw [hji, Mem.load64_store64_same, BitVec.toNat_ofNat, Nat.mod_eq_of_lt hn]
  · rw [Mem.load64_store64_disjoint _ (by omega)]

theorem free_lt (h : WF mmap) {a : Nat} (ha : a ∈ mmap.free) : a < 2 ^ 64 := by
  obtain ⟨r, hr, k, hk, rfl, -⟩ := ha
  have := h.len_eq hr
  have := (h.region r hr).addr
  omega

/-- One 4 KiB page: a free frame is taken, or none is free. -/
theorem mapAllocFrame_taken (ht : pageTypeToSize pageType = defaultPageSize) (h : WF mmap) :
    (mapAllocFrame mmap pageType = (frameAllocFailed, mmap) ∧ mmap.free = ∅) ∨
      ∃ a mmap', mapAllocFrame mmap pageType = (a, mmap') ∧ a ≠ frameAllocFailed ∧ a ∈ mmap.free ∧ WF mmap' ∧
        SameFrames mmap mmap' ∧ mmap'.free = mmap.free \ {a} := by
  rw [mapAllocFrame_default ht]
  show (mapAllocFrameContiguous mmap 1 = _ ∧ _) ∨ ∃ a mmap', mapAllocFrameContiguous mmap 1 = _ ∧ _
  rcases mapAlloc_taken h Nat.one_pos with ⟨he, hno⟩ | ⟨a, mmap₁, he, -, hne, ht'⟩
  · left
    refine ⟨he, Set.eq_empty_of_forall_notMem ?_⟩
    rintro _ ⟨r, hr, k, hk, rfl, hb⟩
    have hq := h.qwordCount_eq hr
    refine hno r hr k (by omega) ?_
    -- a run of a single clear bit
    intro j hj
    rw [show j = 0 by omega]
    exact hb
  · right
    have hblock : blockFrames (a, 1) = {a} := by
      ext b
      exact mem_blockFrames_one
    have hfree := ht'.free
    have hleft := ht'.left
    rw [hblock] at hfree hleft
    exact ⟨a, mmap₁, he, hne, hfree rfl, ht'.wf, ht'.same, hleft⟩

/-- The loop lists the frames it takes, in their order, and leaves the list before them. -/
theorem iallocRest_takes (ht : pageTypeToSize pageType = defaultPageSize) :
    ∀ (remaining i : Nat) (m : Mem) (mmap : MemMap), WF mmap →
      iallocRest pageType info remaining i m mmap = (true, m', mmap') →
        ListsOn m m' info i ∧ Takes m' info i remaining mmap mmap' ∧
          ∀ j, j < remaining → pageAddr m' info (i + j) = memMapSource.nth j mmap
  | 0, i, m, mmap, hwf, h => by
    cases h
    exact ⟨⟨rfl, rfl, fun _ _ => rfl⟩, ⟨hwf, SameFrames.refl _, by simp, by simp, by simp⟩,
      fun j hj => absurd hj (Nat.not_lt_zero j)⟩
  | remaining + 1, i, m, mmap, hwf, h => by
    unfold iallocRest at h
    rcases mapAllocFrame_taken ht hwf with ⟨he, -⟩ | ⟨a, mmap₁, he, hne, hin, hwf₁, hsame, hleft⟩
    · rw [he] at h
      simp at h
    rw [he] at h
    dsimp only at h
    rw [if_neg hne] at h
    obtain ⟨hon, hrest, hnth⟩ := iallocRest_takes ht remaining (i + 1) _ _ hwf₁ h
    have hlt := free_lt hwf hin
    have hfirst : pageAddr m' info i = a := by
      rw [hon.before i (by omega), pageAddr_setPageAddr hlt, if_pos rfl]
    have halloc : memMapSource.alloc mmap = (a, mmap₁) := (mapAllocFrame_default ht mmap).symm.trans he
    refine ⟨⟨?_, ?_, ?_⟩, hrest.cons hin hsame hleft hfirst, fun j hj => ?_⟩
    · rw [hon.count]
      exact congrArg BitVec.toNat (Mem.load64_store64_disjoint m (by omega))
    · rw [hon.size]
      exact congrArg BitVec.toNat (Mem.load64_store64_disjoint m (by omega))
    · intro j hj
      rw [hon.before j (by omega), pageAddr_setPageAddr hlt, if_neg (by omega)]
    · cases j with
      | zero =>
        rw [Nat.add_zero, hfirst]
        exact (FrameSource.nth_zero halloc).symm
      | succ j =>
        rw [show i + (j + 1) = i + 1 + j by omega, hnth j (by omega), FrameSource.nth_succ halloc]

/-- A list of 4 KiB pages names single frames, and these are what was taken, in that order. -/
theorem iallocFrames_takes (ht : pageTypeToSize pageType = defaultPageSize) (h : WF mmap)
    (he : iallocFrames count pageType m mmap = .ok (some info, m', mmap')) :
    ListOf m' info count ∧ Takes m' info 0 (frameCount count) mmap mmap' ∧
      ∀ j, j < frameCount count → pageAddr m' info j = memMapSource.nth j mmap := by
  unfold iallocFrames at he
  by_cases hcount : count > 510
  · rw [if_pos hcount] at he
    cases he
  rw [if_neg hcount] at he
  rcases mapAllocFrame_taken ht h with ⟨halloc, -⟩ | ⟨a, mmap₁, halloc, hne, hin, hwf₁, hsame, hleft⟩
  · rw [halloc] at he
    simp at he
  rw [halloc] at he
  dsimp only at he
  rw [if_neg hne] at he
  rcases hloop : iallocRest pageType a (count - 1) 1
    (setPageSize (setPageAddr (setPageCount m a count) a 0 a) a (pageTypeToSize pageType)) mmap₁ with ⟨b, m₁, mmap₂⟩
  rw [hloop] at he
  cases b with
  | false => cases he
  | true =>
    cases he
    obtain ⟨hon, hrest, hnth⟩ := iallocRest_takes ht (count - 1) 1 _ _ hwf₁ hloop
    have hlt := free_lt h hin
    have hfirst : pageAddr m' info 0 = info := by
      rw [hon.before 0 Nat.one_pos]
      unfold setPageSize pageAddr
      rw [Mem.load64_store64_disjoint _ (by omega)]
      exact (pageAddr_setPageAddr (j := 0) hlt).trans (if_pos rfl)
    have hall := hrest.cons (i := 0) hin hsame hleft hfirst
    rw [show count - 1 + 1 = frameCount count by unfold frameCount; omega] at hall
    have hfrom : memMapSource.alloc mmap = (info, mmap₁) := (mapAllocFrame_default ht mmap).symm.trans halloc
    refine ⟨⟨?_, ?_⟩, hall, fun j hj => ?_⟩
    · rw [hon.count]
      unfold pageCount setPageSize setPageAddr setPageCount
      rw [Mem.load64_store64_disjoint _ (by omega), Mem.load64_store64_disjoint _ (by omega), Mem.load64_store64_same,
        BitVec.toNat_ofNat, Nat.mod_eq_of_lt (by omega)]
    · rw [hon.size]
      unfold pageSize setPageSize
      rw [Mem.load64_store64_same, ht]
      rfl
    · cases j with
      | zero =>
        rw [hfirst]
        exact (FrameSource.nth_zero hfrom).symm
      | succ j =>
        unfold frameCount at hj
        rw [FrameSource.nth_succ hfrom, ← hnth j (by omega), Nat.add_comm 1 j]

end

/-! ## `idealloc_frames` -/

/-- The list at `info` names the frames of the set `F`, each once. -/
structure Lists (m : Mem) (info count : Nat) (F : Set Nat) : Prop where
  header : ListOf m info count
  named : ∀ f, f ∈ F ↔ ∃ j, j < frameCount count ∧ f = pageAddr m info j
  once : ∀ i j, i < frameCount count → j < frameCount count → pageAddr m info i = pageAddr m info j → i = j

/-- A list names each of the frames that were taken for it. -/
theorem lists_of_iallocFrames {pageType info count : Nat} {m m' : Mem} {mmap mmap' : MemMap}
    (ht : pageTypeToSize pageType = defaultPageSize) (h : WF mmap)
    (he : iallocFrames count pageType m mmap = .ok (some info, m', mmap')) :
    Lists m' info count (memMapSource.taken (frameCount count) mmap) := by
  obtain ⟨hlist, htakes, hnth⟩ := iallocFrames_takes ht h he
  refine ⟨hlist, ?_, ?_⟩
  · intro f
    exact exists_congr fun j => and_congr_right fun hj => by rw [hnth j hj]
  · have honce := htakes.once
    simp only [Nat.zero_add] at honce
    exact honce

/-- The list depends on its frame only. -/
theorem Lists.congr {m m' : Mem} {info count : Nat} {F : Set Nat} (h : Lists m info count F) (hcount : count ≤ 510)
    (hinfo : info % 4096 = 0) (hsame : ∀ a, a / 4096 * 4096 = info → m' a = m a) : Lists m' info count F := by
  have hpage : ∀ j, j < frameCount count → pageAddr m' info j = pageAddr m info j := by
    intro j hj
    unfold frameCount at hj
    exact congrArg BitVec.toNat (Mem.load_congr fun x h1 h2 => hsame x (by omega))
  refine ⟨h.header.congr hinfo hsame, ?_, ?_⟩
  · intro f
    rw [h.named f]
    exact exists_congr fun j => and_congr_right fun hj => by rw [hpage j hj]
  · intro i j hi hj he
    rw [hpage i hi, hpage j hj] at he
    exact h.once i j hi hj he

section
variable {m : Mem} {info count : Nat} {mmap : MemMap} {F : Set Nat}

/-- Frames that are not free, listed once each, are given back by the loop. -/
theorem ideallocRest_spec (hsize : pageSize m info = defaultPageSize) :
    ∀ (remaining i : Nat) (mmap : MemMap), WF mmap →
      (∀ j, j < remaining → pageAddr m info (i + j) ∈ mmap.frames ∧ pageAddr m info (i + j) ∉ mmap.free) →
        (∀ j k, j < remaining → k < remaining → pageAddr m info (i + j) = pageAddr m info (i + k) → j = k) →
          ∃ mmap', ideallocRest m info remaining i mmap = (true, mmap') ∧ WF mmap' ∧ SameFrames mmap mmap' ∧
            ∀ f, f ∈ mmap'.free ↔ f ∈ mmap.free ∨ ∃ j, j < remaining ∧ f = pageAddr m info (i + j)
  | 0, i, mmap, hwf, _, _ => ⟨mmap, rfl, hwf, SameFrames.refl mmap, fun f => by simp⟩
  | remaining + 1, i, mmap, hwf, hheld, honce => by
    obtain ⟨hin, hout⟩ := hheld 0 (Nat.succ_pos _)
    obtain ⟨mmap₁, he, hwf₁, hsame₁, hfree⟩ := mapDeallocFrame_one hwf hin hout
    rw [Nat.add_zero] at he hfree
    have hstep : ∀ j, i + 1 + j = i + (j + 1) := fun j => by omega
    have hheld₁ : ∀ j, j < remaining →
        pageAddr m info (i + 1 + j) ∈ mmap₁.frames ∧ pageAddr m info (i + 1 + j) ∉ mmap₁.free := by
      intro j hj
      rw [hstep, hsame₁.frames, hfree]
      obtain ⟨hin', hout'⟩ := hheld (j + 1) (by omega)
      refine ⟨hin', ?_⟩
      rintro (h1 | h1)
      · exact hout' h1
      · exact absurd (honce (j + 1) 0 (by omega) (by omega) h1) (by omega)
    have honce₁ : ∀ j k, j < remaining → k < remaining → pageAddr m info (i + 1 + j) = pageAddr m info (i + 1 + k) →
        j = k := by
      intro j k hj hk h1
      rw [hstep, hstep] at h1
      have := honce (j + 1) (k + 1) (by omega) (by omega) h1
      omega
    obtain ⟨mmap', he', hwf', hsame', hfree'⟩ := ideallocRest_spec hsize remaining (i + 1) mmap₁ hwf₁ hheld₁ honce₁
    refine ⟨mmap', ?_, hwf', hsame₁.trans hsame', fun f => ?_⟩
    · unfold ideallocRest
      rw [hsize, he]
      exact he'
    · rw [hfree', hfree, Set.mem_union, Set.mem_singleton_iff]
      constructor
      · rintro ((h1 | h1) | ⟨j, hj, h1⟩)
        · exact .inl h1
        · exact .inr ⟨0, Nat.succ_pos _, by rw [h1, Nat.add_zero]⟩
        · exact .inr ⟨j + 1, by omega, by rw [h1, hstep]⟩
      · rintro (h1 | ⟨j, hj, h1⟩)
        · exact .inl (.inl h1)
        · cases j with
          | zero => exact .inl (.inr (by rw [h1, Nat.add_zero]))
          | succ j => exact .inr ⟨j, by omega, by rw [h1, hstep]⟩

/-- `idealloc_frames` gives the frames of a list back. -/
theorem ideallocFrames_spec (hl : Lists m info count F) (h : WF mmap)
    (hheld : ∀ f ∈ F, f ∈ mmap.frames ∧ f ∉ mmap.free) :
    ∃ mmap', ideallocFrames m info mmap = (0, mmap') ∧ WF mmap' ∧ SameFrames mmap mmap' ∧
      mmap'.free = mmap.free ∪ F := by
  have hpos : frameCount count = (count - 1) + 1 := by
    unfold frameCount
    omega
  have hmem : ∀ j, j < frameCount count → pageAddr m info j ∈ F := fun j hj => (hl.named _).2 ⟨j, hj, rfl⟩
  obtain ⟨mmap₁, he, hwf₁, hsame₁, hfree⟩ := ideallocRest_spec hl.header.size (count - 1) 1 mmap h
    (fun j hj => hheld _ (hmem _ (by omega)))
    (fun j k hj hk h1 => by
      have := hl.once (1 + j) (1 + k) (by omega) (by omega) h1
      omega)
  have hfirst : pageAddr m info 0 ∉ mmap₁.free := by
    rw [hfree]
    rintro (h1 | ⟨j, hj, h1⟩)
    · exact (hheld _ (hmem 0 (by omega))).2 h1
    · have := hl.once 0 (1 + j) (by omega) (by omega) h1
      omega
  have hin : pageAddr m info 0 ∈ mmap₁.frames := by
    rw [hsame₁.frames]
    exact (hheld _ (hmem 0 (by omega))).1
  obtain ⟨mmap₂, he₂, hwf₂, hsame₂, hfree₂⟩ := mapDeallocFrame_one hwf₁ hin hfirst
  have hall : ideallocFrames m info mmap = (0, mmap₂) := by
    unfold ideallocFrames
    rw [hl.header.count, he]
    dsimp only
    rw [hl.header.size, he₂]
  refine ⟨mmap₂, hall, hwf₂, hsame₁.trans hsame₂, ?_⟩
  ext f
  rw [hfree₂, Set.mem_union, Set.mem_singleton_iff, hfree, Set.mem_union, hl.named]
  constructor
  · rintro ((h1 | ⟨j, hj, h1⟩) | h1)
    · exact .inl h1
    · exact .inr ⟨1 + j, by omega, h1⟩
    · exact .inr ⟨0, by omega, h1⟩
  · rintro (h1 | ⟨j, hj, h1⟩)
    · exact .inl (.inl h1)
    · cases j with
      | zero => exact .inr h1
      | succ j => exact .inl (.inr ⟨j, by omega, by rw [h1, Nat.add_comm]⟩)

end

end Icarus.Memory
