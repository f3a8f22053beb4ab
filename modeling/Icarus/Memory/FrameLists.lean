/-
What `ialloc_frames` does when it is asked for 4 KiB pages: which frames it takes, and that it writes the
list into the first of them and nowhere else.
-/
import Icarus.Memory.FrameSource
import Icarus.Memory.StructPage

namespace Icarus.Memory

open Icarus.Base

/-- A page type that stands for 4 KiB pages gets single frames. -/
theorem mapAllocFrame_default {pageType : Nat} (h : pageTypeToSize pageType = defaultPageSize) (mmap : MemMap) :
    mapAllocFrame mmap pageType = memMapSource.alloc mmap := by
  unfold mapAllocFrame
  rw [h]
  rfl

/-! ## The list -/

section
variable {m : Mem} {info i n a : Nat}

theorem setPageAddr_of_ne (hinfo : info % 4096 = 0) (hi : i < 510) (h : a / 4096 * 4096 ≠ info) :
    setPageAddr m info i n a = m a :=
  Mem.store_of_lt (by omega)

theorem setPageCount_of_ne (hinfo : info % 4096 = 0) (h : a / 4096 * 4096 ≠ info) : setPageCount m info n a = m a :=
  Mem.store_of_lt (by omega)

theorem setPageSize_of_ne (hinfo : info % 4096 = 0) (h : a / 4096 * 4096 ≠ info) : setPageSize m info n a = m a :=
  Mem.store_of_lt (by omega)

end

/-- The header of the list at `info`. -/
structure ListOf (m : Mem) (info count : Nat) : Prop where
  count : pageCount m info = count
  size : pageSize m info = defaultPageSize

theorem ListOf.setPageAddr {m : Mem} {info count i a : Nat} (h : ListOf m info count) :
    ListOf (setPageAddr m info i a) info count :=
  ⟨(congrArg BitVec.toNat (Mem.load64_store64_disjoint m (by omega))).trans h.count,
    (congrArg BitVec.toNat (Mem.load64_store64_disjoint m (by omega))).trans h.size⟩

/-- The list depends on its frame only. -/
theorem ListOf.congr {m m' : Mem} {info count : Nat} (h : ListOf m info count) (hinfo : info % 4096 = 0)
    (hsame : ∀ a, a / 4096 * 4096 = info → m' a = m a) : ListOf m' info count :=
  ⟨(congrArg BitVec.toNat (Mem.load_congr fun x h1 h2 => hsame x (by omega))).trans h.count,
    (congrArg BitVec.toNat (Mem.load_congr fun x h1 h2 => hsame x (by omega))).trans h.size⟩

/-! ## The loop -/

section
variable {pageType info : Nat} {m m' : Mem} {mmap mmap' : MemMap}

theorem iallocRest_spec (ht : pageTypeToSize pageType = defaultPageSize) (hinfo : info % 4096 = 0) {count : Nat} :
    ∀ (remaining i : Nat) (m : Mem) (mmap : MemMap), i + remaining ≤ 510 → ListOf m info count →
      ∃ b m' mmap', iallocRest pageType info remaining i m mmap = (b, m', mmap') ∧ ListOf m' info count ∧
        (∀ a, a / 4096 * 4096 ≠ info → m' a = m a) ∧ (b = true ↔ memMapSource.Serves remaining mmap) ∧
        ∃ n, mmap' = memMapSource.after n mmap ∧ (b = true → n = remaining)
  | 0, i, m, mmap, _, hlist =>
    ⟨true, m, mmap, rfl, hlist, fun _ _ => rfl, iff_of_true rfl trivial, 0, rfl, fun _ => rfl⟩
  | remaining + 1, i, m, mmap, hi, hlist => by
    unfold iallocRest
    rw [mapAllocFrame_default ht]
    dsimp only
    have hwrite : ∀ a, a / 4096 * 4096 ≠ info → setPageAddr m info i (memMapSource.alloc mmap).1 a = m a :=
      fun a ha => setPageAddr_of_ne hinfo (by omega) ha
    split_ifs with hfail
    · exact ⟨false, _, _, rfl, hlist.setPageAddr, hwrite, iff_of_false (by decide) (fun h => h.1 hfail), 1, rfl,
        fun h => by cases h⟩
    · obtain ⟨b, m', mmap', he, hlist', hframe, hb, n, hn, hbn⟩ := iallocRest_spec ht hinfo remaining (i + 1)
        (setPageAddr m info i (memMapSource.alloc mmap).1) (memMapSource.alloc mmap).2 (by omega) hlist.setPageAddr
      refine ⟨b, m', mmap', he, hlist', fun a ha => (hframe a ha).trans (hwrite a ha), ?_, n + 1, hn, fun h => ?_⟩
      · exact hb.trans (iff_of_eq (true_and _)).symm |>.trans (and_congr_left fun _ => iff_of_true trivial hfail)
      · rw [hbn h]

/-! ## `ialloc_frames` -/

/-- The number of frames `ialloc_frames` takes for a list: one even for none. -/
def frameCount (count : Nat) : Nat := max 1 count

/-- A call that took its first frame, `info`. -/
structure Listed (count info : Nat) (m : Mem) (mmap : MemMap) (m' : Mem) (mmap' : MemMap) : Prop where
  first : (memMapSource.alloc mmap).1 = info ∧ info ≠ frameAllocFailed
  list : ListOf m' info count
  frame : ∀ a, a / 4096 * 4096 ≠ info → m' a = m a
  taken : ∃ n, mmap' = memMapSource.after (n + 1) mmap

/-- The outcomes of `ialloc_frames`: too many frames, all of them, or too few left. -/
inductive Listing (count : Nat) (m : Mem) (mmap : MemMap) : Option Nat → Mem → MemMap → Prop
  | refused : 510 < count → Listing count m mmap none m mmap
  | listed {info : Nat} {m' : Mem} {mmap' : MemMap} : count ≤ 510 → Listed count info m mmap m' mmap' →
      memMapSource.Serves (frameCount count) mmap → mmap' = memMapSource.after (frameCount count) mmap →
        Listing count m mmap (some info) m' mmap'
  | missing {info : Nat} {m' : Mem} {mmap' : MemMap} : count ≤ 510 → Listed count info m mmap m' mmap' →
      ¬memMapSource.Serves (frameCount count) mmap → Listing count m mmap none m' mmap'

theorem Listed.mem_free {count info : Nat} (h : Listed count info m mmap m' mmap') (hok : memMapSource.Ok mmap) :
    info ∈ mmap.free ∧ info ∉ mmap'.free := by
  obtain ⟨n, hn⟩ := h.taken
  rcases memMapSource.fresh mmap hok with hf | ⟨hin, hout⟩
  · exact absurd (h.first.1.symm.trans hf) h.first.2
  · rw [h.first.1] at hin hout
    refine ⟨hin, fun hfree => hout ?_⟩
    rw [hn] at hfree
    exact memMapSource.free_after (memMapSource.ok mmap hok) n hfree

/-- The list is written into a frame that was free. -/
theorem Listed.fill {count info a : Nat} (h : Listed count info m mmap m' mmap') (hok : memMapSource.Ok mmap)
    (ha : a / 4096 * 4096 ∉ mmap.free) : m' a = m a := by
  refine h.frame a ?_
  rintro rfl
  exact ha (h.mem_free hok).1

/-- `ialloc_frames` runs into a frame that is missing, or has one of the outcomes. -/
theorem iallocFrames_spec (ht : pageTypeToSize pageType = defaultPageSize) (hok : memMapSource.Ok mmap) {count : Nat} :
    (∃ r m' mmap', iallocFrames count pageType m mmap = .ok (r, m', mmap') ∧ Listing count m mmap r m' mmap') ∨
      count ≤ 510 ∧ (memMapSource.alloc mmap).1 = frameAllocFailed ∧
        iallocFrames count pageType m mmap = .error (.badAddress (add64 frameAllocFailed kernelVma)) := by
  unfold iallocFrames
  rw [mapAllocFrame_default ht]
  split_ifs with hcount
  · exact .inl ⟨none, m, mmap, rfl, .refused hcount⟩
  dsimp only
  by_cases hfail : (memMapSource.alloc mmap).1 = frameAllocFailed
  · exact .inr ⟨by omega, hfail, if_pos hfail⟩
  left
  rw [if_neg hfail]
  rcases memMapSource.fresh mmap hok with hf | ⟨hin, -⟩
  · exact absurd hf hfail
  have hinfo := memMapSource.aligned mmap _ hok hin
  generalize hi : (memMapSource.alloc mmap).1 = info at *
  have hheader : ListOf (setPageSize (setPageAddr (setPageCount m info count) info 0 info) info
      (pageTypeToSize pageType)) info count := by
    refine ⟨?_, ?_⟩
    · unfold pageCount setPageSize setPageAddr setPageCount
      rw [Mem.load64_store64_disjoint _ (by omega), Mem.load64_store64_disjoint _ (by omega), Mem.load64_store64_same,
        BitVec.toNat_ofNat, Nat.mod_eq_of_lt (by omega)]
    · unfold pageSize setPageSize
      rw [Mem.load64_store64_same, ht]
      rfl
  have hhere : ∀ a, a / 4096 * 4096 ≠ info → setPageSize (setPageAddr (setPageCount m info count) info 0 info) info
      (pageTypeToSize pageType) a = m a := fun a ha => by
    rw [setPageSize_of_ne hinfo ha, setPageAddr_of_ne hinfo (by decide) ha, setPageCount_of_ne hinfo ha]
  obtain ⟨b, m', mmap', he, hlist, hframe, hb, n, hn, hbn⟩ := iallocRest_spec ht hinfo (count - 1) 1
    (setPageSize (setPageAddr (setPageCount m info count) info 0 info) info (pageTypeToSize pageType))
    (memMapSource.alloc mmap).2 (by omega) hheader
  have hcount' : frameCount count = count - 1 + 1 := by
    unfold frameCount
    omega
  have hlisted : Listed count info m mmap m' mmap' :=
    ⟨⟨hi, hfail⟩, hlist, fun a ha => (hframe a ha).trans (hhere a ha), n, hn⟩
  have hserves : memMapSource.Serves (frameCount count) mmap ↔ b = true := by
    rw [hcount', hb]
    exact (and_congr_left fun _ => iff_of_true (by rwa [hi]) trivial).trans (iff_of_eq (true_and _))
  rw [he]
  cases b with
  | true =>
    refine ⟨some info, m', mmap', rfl, .listed (by omega) hlisted (hserves.2 rfl) ?_⟩
    rw [hn, hbn rfl, hcount']
    rfl
  | false => exact ⟨none, m', mmap', rfl, .missing (by omega) hlisted fun h => by cases hserves.1 h⟩

end

end Icarus.Memory
