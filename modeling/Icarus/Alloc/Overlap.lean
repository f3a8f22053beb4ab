/-
`Imemcpy` (mem_utils.c) where source and destination overlap: it proceeds upwards, so it moves memory down as it is, and up
only as far as that repeats itself.
-/
import Icarus.Base.Stores
import Icarus.Alloc.Realloc

namespace Icarus.Alloc

open Icarus.Base Icarus.Memory Icarus.Processes

section
variable {k : Kernel} {dest src n : Nat}

/-- Within the pages of the heap `Imemcpy` is a copy upwards. -/
theorem imemcpy_copyUp (hd : k.heap.heap.heapStart ≤ dest + metaDataSize)
    (hs : k.heap.heap.heapStart ≤ src + metaDataSize) (hd' : dest + n ≤ k.heap.heap.limit)
    (hs' : src + n ≤ k.heap.heap.limit) (hlimit : k.heap.heap.limit < 2 ^ 64) :
    imemcpy n dest src k = .ok (withHeapMem k (copyUp k.heap.heap.mem dest src n)) := by
  induction n generalizing dest src k with
  | zero => rfl
  | succ n ih =>
    unfold imemcpy
    rw [loadByte_inside hs (by omega)]
    show (storeByte k dest _ >>= _) = _
    rw [storeByte_inside hd (by omega)]
    show imemcpy n (add64 dest 1) (add64 src 1) _ = _
    have hrest := @ih (withHeapMem k (Function.update k.heap.heap.mem dest (k.heap.heap.mem src))) (dest + 1) (src + 1)
      (show k.heap.heap.heapStart ≤ _ by omega) (show k.heap.heap.heapStart ≤ _ by omega)
      (show _ ≤ k.heap.heap.limit by omega) (show _ ≤ k.heap.heap.limit by omega) hlimit
    rw [add64_of_lt (by omega), add64_of_lt (by omega), hrest, copyUp_succ]
    rfl

/-- Within the pages of the heap `Imemcpy` ends and changes nothing but what its destination holds, and it puts there what
was in the source if and only if it moves downwards or the source repeats itself with the distance of the two. -/
theorem imemcpy_moves_iff (hd : k.heap.heap.heapStart ≤ dest + metaDataSize)
    (hs : k.heap.heap.heapStart ≤ src + metaDataSize) (hd' : dest + n ≤ k.heap.heap.limit)
    (hs' : src + n ≤ k.heap.heap.limit) (hlimit : k.heap.heap.limit < 2 ^ 64) :
    ∃ k', imemcpy n dest src k = .ok k' ∧ k' = withHeapMem k k'.heap.heap.mem ∧
      (∀ x, x < dest ∨ dest + n ≤ x → k'.heap.heap.mem x = k.heap.heap.mem x) ∧
      ((∀ i, i < n → k'.heap.heap.mem (dest + i) = k.heap.heap.mem (src + i)) ↔
        dest ≤ src ∨ ∀ i, i + (dest - src) < n →
          k.heap.heap.mem (src + (i + (dest - src))) = k.heap.heap.mem (src + i)) := by
  refine ⟨_, imemcpy_copyUp hd hs hd' hs' hlimit, rfl, fun x hx => ?_, copyUp_exact_iff _ dest src n⟩
  exact (copyUp_eq _ dest src n x).trans (if_neg (by omega))

end

/-- A one moved up by a byte: it comes out twice. -/
theorem imemcpy_moves_iff_reallocKernel :
    ∃ k', imemcpy 2 0xFFFFFF0000000021 0xFFFFFF0000000020 reallocKernel = .ok k' ∧
      ¬∀ i, i < 2 → k'.heap.heap.mem (0xFFFFFF0000000021 + i) = reallocKernel.heap.heap.mem (0xFFFFFF0000000020 + i) := by
  obtain ⟨k', hok, -, -, hiff⟩ := @imemcpy_moves_iff reallocKernel 0xFFFFFF0000000021 0xFFFFFF0000000020 2
    (by decide) (by decide) (by decide) (by decide) (by decide)
  refine ⟨k', hok, fun h => ?_⟩
  rcases hiff.1 h with hle | hsame
  · exact absurd hle (by decide)
  · exact absurd (hsame 0 (by decide)) (by decide +kernel)

end Icarus.Alloc
