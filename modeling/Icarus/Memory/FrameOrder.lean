/-
The order in which frames are given out: each call takes the lowest free frame, so that calls in a row give out frames
that follow each other exactly where these are free.
-/
import Icarus.Memory.FrameRelease

namespace Icarus.Memory

open Icarus.Base

section
variable {mmap : MemMap} {a f n : Nat}

/-- The first run of one frame is the lowest free frame. -/
theorem FirstFit.isLeast {pre post : List MemRegion} {r : MemRegion} {k : Nat} (h : WF mmap)
    (hfit : FirstFit mmap 1 pre r post k) (hk : k + 1 ≤ r.frames) : IsLeast mmap.free (r.startAddr + 4096 * k) := by
  have hmem : r ∈ mmap.regions := by
    rw [hfit.regions]
    simp
  constructor
  · exact (mem_free_iff h hmem (by omega)).2 (hfit.first.run 0 Nat.one_pos)
  · rintro _ ⟨x, hx, i, hi, rfl, hbit⟩
    have hfree : IsRun (FreeAt mmap.bitmap.data x.bitmapStartAddr) i 1 := by
      intro j hj
      obtain rfl : j = 0 := by omega
      exact hbit
    have hq := h.qwordCount_eq hx
    rw [hfit.regions, List.mem_append, List.mem_cons] at hx
    rcases hx with hx | rfl | hx
    · exact absurd hfree (hfit.before x hx i (by omega))
    · by_contra hlt
      exact hfit.first.least i (by omega) hfree
    · -- the regions behind start where this one ends
      have hascending := h.ascending
      rw [hfit.regions, List.pairwise_append] at hascending
      have hbehind := List.rel_of_pairwise_cons hascending.2.1 hx
      have hlen := h.len_eq hmem
      omega

/-- A call gives out the lowest free frame, or there is none. -/
theorem memMapSource_alloc (hok : memMapSource.Ok mmap) :
    (memMapSource.alloc mmap).1 = frameAllocFailed ∧ mmap.free = ∅ ∨
      (memMapSource.alloc mmap).1 ≠ frameAllocFailed ∧ IsLeast mmap.free (memMapSource.alloc mmap).1 ∧
        (memMapSource.alloc mmap).2.free = mmap.free \ {(memMapSource.alloc mmap).1} := by
  have ht : pageTypeToSize 0 = defaultPageSize := by decide
  have hcall := mapAllocFrame_default ht mmap
  rcases mapAllocFrame_taken ht hok.1 with ⟨he, hempty⟩ | ⟨a, mmap', he, hne, hin, -, -, hleft⟩
  · rw [← hcall, he]
    exact .inl ⟨rfl, hempty⟩
  · right
    rw [← hcall, he]
    refine ⟨hne, ?_, hleft⟩
    rw [hcall] at he
    rcases mapAllocFrameContiguous_spec hok.1 Nat.one_pos with ⟨hf, -⟩ | ⟨pre, r, post, k, data, hfit, hk, -, heq⟩
    · cases he.symm.trans hf
      exact absurd rfl hne
    · cases he.symm.trans heq
      exact hfit.isLeast hok.1 hk

/-- Frames that follow the lowest free one are given out after it, as far as they are free. -/
theorem nth_of_run : ∀ (n : Nat) {mmap : MemMap} {f : Nat}, memMapSource.Ok mmap → IsLeast mmap.free f →
    (∀ j < n, f + 4096 * j ∈ mmap.free) → ∀ j < n, memMapSource.nth j mmap = f + 4096 * j
  | 0, _, _, _, _, _, j, hj => absurd hj (Nat.not_lt_zero j)
  | n + 1, mmap, f, hok, hleast, hrun, j, hj => by
    rcases memMapSource_alloc hok with ⟨-, hempty⟩ | ⟨-, hleast', hleft⟩
    · have hin := hleast.1
      rw [hempty] at hin
      exact hin.elim
    · have hfirst : (memMapSource.alloc mmap).1 = f := hleast'.unique hleast
      rw [hfirst] at hleft
      cases j with
      | zero => exact hfirst
      | succ j =>
        -- the next frame is the lowest of those that are left
        have hnext : IsLeast (memMapSource.alloc mmap).2.free (f + 4096) := by
          rw [hleft]
          refine ⟨⟨hrun 1 (by omega), fun h => ?_⟩, fun x hx => ?_⟩
          · have : f + 4096 = f := h
            omega
          · have hle := hleast.2 hx.1
            have hne : x ≠ f := hx.2
            have hx4096 := memMapSource.aligned _ _ hok hx.1
            have hf4096 := memMapSource.aligned _ _ hok hleast.1
            omega
        have hrest : ∀ j < n, f + 4096 + 4096 * j ∈ (memMapSource.alloc mmap).2.free := by
          intro j hj
          rw [hleft, show f + 4096 + 4096 * j = f + 4096 * (j + 1) by omega]
          refine ⟨hrun (j + 1) (by omega), fun h => ?_⟩
          have : f + 4096 * (j + 1) = f := h
          omega
        rw [FrameSource.nth_succ (Prod.ext rfl rfl), nth_of_run n (memMapSource.ok _ hok) hnext hrest j (by omega)]
        omega

/-- The frames that calls in a row give out follow each other exactly where the frames behind the lowest one are free. -/
theorem nth_consecutive_iff {m : Nat} (hok : memMapSource.Ok mmap) (hserves : memMapSource.Serves m mmap) (hn : n ≤ m)
    (hleast : IsLeast mmap.free f) :
    (∀ j < n, memMapSource.nth j mmap = f + 4096 * j) ↔ ∀ j < n, f + 4096 * j ∈ mmap.free := by
  constructor
  · intro hall j hj
    rw [← hall j hj]
    exact (hserves.taken_free hok ⟨j, by omega, rfl⟩).1
  · exact nth_of_run n hok hleast

end

end Icarus.Memory
