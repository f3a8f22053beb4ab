/-
Single frames for tables and their contents: what the users of an allocator of single frames rely on,
and the frame map as such an allocator.
-/
import Icarus.Memory.FrameSafety

namespace Icarus.Memory

open Icarus.Base

/-- An allocator of frames with the frames it may still give out: it fails, or gives out one of these,
aligned and below 2 GiB, and never gives that one out again. -/
structure FrameSource (σ : Type) where
  alloc : σ → Nat × σ
  Ok : σ → Prop
  free : σ → Set Nat
  aligned : ∀ s f, Ok s → f ∈ free s → f % 4096 = 0
  low : ∀ s f, Ok s → f ∈ free s → f < 2 ^ 31
  ok : ∀ s, Ok s → Ok (alloc s).2
  shrinks : ∀ s, Ok s → free (alloc s).2 ⊆ free s
  fresh : ∀ s, Ok s → (alloc s).1 = frameAllocFailed ∨ (alloc s).1 ∈ free s ∧ (alloc s).1 ∉ free (alloc s).2

/-- The frames below `limit` in order, from frame `k` on. -/
def bumpSource (limit : Nat) (h : limit ≤ 2 ^ 31) : FrameSource Nat where
  alloc k := if 4096 * k < limit then (4096 * k, k + 1) else (frameAllocFailed, k)
  Ok _ := True
  free k := {f | f % 4096 = 0 ∧ 4096 * k ≤ f ∧ f < limit}
  aligned := fun _ _ _ hf => hf.1
  low := fun _ _ _ hf => hf.2.2.trans_le h
  ok := fun _ _ => trivial
  shrinks k _ f hf := by
    refine ⟨hf.1, ?_, hf.2.2⟩
    have := hf.2.1
    split_ifs at this <;> dsimp only at this <;> omega
  fresh k _ := by
    by_cases hk : 4096 * k < limit
    · right
      rw [if_pos hk]
      exact ⟨⟨by omega, le_rfl, hk⟩, fun hf => absurd hf.2.1 (by omega)⟩
    · left
      rw [if_neg hk]

/-! ## The frame map -/

/-- All memory lies below 2 GiB, within the direct map. -/
def MemMap.Low (mmap : MemMap) : Prop := ∀ r ∈ mmap.regions, r.startAddr + r.lenBytes ≤ 2 ^ 31

section
variable {mmap : MemMap}

theorem MemMap.Low.recounted (h : mmap.Low) {pre post : List MemRegion} {r : MemRegion} {c : Nat} {data : Mem}
    (hr : mmap.regions = pre ++ r :: post) : (recounted mmap pre r post c data).Low := by
  intro x hx
  have hold := fun y (hy : y ∈ pre ++ r :: post) => h y (hr ▸ hy)
  rcases List.mem_append.1 hx with hx | hx
  · exact hold x (List.mem_append_left _ hx)
  · rcases List.mem_cons.1 hx with rfl | hx
    · exact hold r (by simp)
    · exact hold x (by simp [hx])

theorem mem_blockFrames_one {a start : Nat} : a ∈ blockFrames (start, 1) ↔ a = start := by
  constructor
  · rintro ⟨k, hk, he⟩
    dsimp only at hk he
    omega
  · rintro rfl
    exact ⟨0, Nat.one_pos, rfl⟩

/-- One frame at a time: the allocation fails and changes nothing, or takes one free frame. -/
theorem mapAllocFrameContiguous_one (h : WF mmap) (hlow : mmap.Low) :
    mapAllocFrameContiguous mmap 1 = (frameAllocFailed, mmap) ∨
      ∃ a mmap', mapAllocFrameContiguous mmap 1 = (a, mmap') ∧ a ∈ mmap.free ∧ mmap'.free = mmap.free \ {a} ∧
        WF mmap' ∧ mmap'.Low := by
  rcases mapAllocFrameContiguous_spec h Nat.one_pos with ⟨hf, -⟩ | ⟨pre, r, post, k, data, hfit, hk, hd, heq⟩
  · exact .inl hf
  · have hblock : blockFrames (r.startAddr + 4096 * k, 1) = {r.startAddr + 4096 * k} := by
      ext a
      exact mem_blockFrames_one
    refine .inr ⟨_, _, heq, ?_, ?_, h.mark hfit.regions hk hfit.first.run hd, hlow.recounted hfit.regions⟩
    · exact blockFrames_subset_free hfit hk (mem_blockFrames_one.2 rfl)
    · rw [free_mark h.shaped hfit.regions hk hd, hblock]

theorem free_aligned (h : WF mmap) {a : Nat} (ha : a ∈ mmap.free) : a % 4096 = 0 := by
  obtain ⟨r, hr, k, -, rfl, -⟩ := ha
  have := (h.region r hr).startAligned
  unfold defaultPageSize at this
  omega

theorem free_low (h : WF mmap) (hlow : mmap.Low) {a : Nat} (ha : a ∈ mmap.free) : a < 2 ^ 31 := by
  obtain ⟨r, hr, k, hk, rfl, -⟩ := ha
  have := h.len_eq hr
  have := hlow r hr
  omega

/-- `ialloc_kframe(1, ..)` and `map_alloc_frame` of a 4 KiB page. -/
def memMapSource : FrameSource MemMap where
  alloc mmap := mapAllocFrameContiguous mmap 1
  Ok mmap := WF mmap ∧ mmap.Low
  free := MemMap.free
  aligned := fun _ _ h hf => free_aligned h.1 hf
  low := fun _ _ h hf => free_low h.1 h.2 hf
  ok mmap h := by
    rcases mapAllocFrameContiguous_one h.1 h.2 with hf | ⟨a, mmap', he, -, -, hok⟩
    · rw [hf]
      exact h
    · rw [he]
      exact hok
  shrinks mmap h := by
    rcases mapAllocFrameContiguous_one h.1 h.2 with hf | ⟨a, mmap', he, -, hfree, -⟩
    · rw [hf]
    · rw [he, hfree]
      exact Set.sdiff_subset
  fresh mmap h := by
    rcases mapAllocFrameContiguous_one h.1 h.2 with hf | ⟨a, mmap', he, hin, hfree, -⟩
    · exact .inl (by rw [hf])
    · rw [he, hfree]
      exact .inr ⟨hin, fun ha => ha.2 rfl⟩

end

/-! ## Several frames in a row -/

namespace FrameSource

variable {σ : Type} (src : FrameSource σ)

/-- The state after `n` calls. -/
def after : (n : Nat) → σ → σ
  | 0, s => s
  | n + 1, s => after n (src.alloc s).2

/-- The next `n` calls all give a frame out. -/
def Serves : (n : Nat) → σ → Prop
  | 0, _ => True
  | n + 1, s => (src.alloc s).1 ≠ frameAllocFailed ∧ Serves n (src.alloc s).2

theorem after_add (m n : Nat) (s : σ) : src.after (m + n) s = src.after n (src.after m s) := by
  induction m generalizing s with
  | zero => rw [Nat.zero_add]; rfl
  | succ m ih => rw [Nat.succ_add]; exact ih _

theorem serves_add (m n : Nat) (s : σ) : src.Serves (m + n) s ↔ src.Serves m s ∧ src.Serves n (src.after m s) := by
  induction m generalizing s with
  | zero => rw [Nat.zero_add]; exact (iff_of_eq (true_and _)).symm
  | succ m ih =>
    rw [Nat.succ_add]
    exact (and_congr_right fun _ => ih _).trans (and_assoc).symm

theorem ok_after {s : σ} (h : src.Ok s) (n : Nat) : src.Ok (src.after n s) := by
  induction n generalizing s with
  | zero => exact h
  | succ n ih => exact ih (src.ok s h)

theorem free_after {s : σ} (h : src.Ok s) (n : Nat) : src.free (src.after n s) ⊆ src.free s := by
  induction n generalizing s with
  | zero => exact subset_rfl
  | succ n ih => exact (ih (src.ok s h)).trans (src.shrinks s h)

end FrameSource

end Icarus.Memory
