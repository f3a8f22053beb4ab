/-
Memories written cell by cell: in a list of stores the last one to a place counts, and a copy that proceeds upwards, with
source and destination in one memory, repeats what lies between them.
-/
import Mathlib.Tactic

namespace Icarus.Base

/-! ## Lists of stores -/

section
variable {ι α : Type*} [DecidableEq ι]

/-- The stores, one after the other. -/
def storeAll (m : ι → α) (stores : List (ι × α)) : ι → α :=
  stores.foldl (fun m store => Function.update m store.1 store.2) m

variable {m : ι → α} {stores stores' : List (ι × α)}

@[simp] theorem storeAll_nil : storeAll m [] = m := rfl

@[simp] theorem storeAll_cons (store : ι × α) :
    storeAll m (store :: stores) = storeAll (Function.update m store.1 store.2) stores := rfl

theorem storeAll_append : storeAll m (stores ++ stores') = storeAll (storeAll m stores) stores' := List.foldl_append

end

/-! ## Copies upwards -/

section
variable {α : Type*}

/-- The cells from `s` on, read and written one by one. -/
def copyUp (m : ℕ → α) (d s : ℕ) : (n : ℕ) → ℕ → α
  | 0 => m
  | n + 1 => Function.update (copyUp m d s n) (d + n) (copyUp m d s n (s + n))

/-- Where the `i`-th cell that is written comes from. -/
def copySource (d s i : ℕ) : ℕ := if s < d then s + i % (d - s) else s + i

theorem copySource_of_le {d s : ℕ} (h : d ≤ s) (i : ℕ) : copySource d s i = s + i := if_neg (by omega)

theorem copySource_of_lt {d s i : ℕ} (h : s + i < d) : copySource d s i = s + i := by
  unfold copySource
  rw [if_pos (by omega), Nat.mod_eq_of_lt (by omega)]

/-- A cell that was written before it is read comes from where that one did. -/
theorem copySource_back {d s i : ℕ} (h : s < d) (hi : d - s ≤ i) : copySource d s (i - (d - s)) = copySource d s i := by
  unfold copySource
  rw [if_pos h, if_pos h, ← Nat.mod_eq_sub_mod hi]

/-- What a copy upwards leaves, however the two overlap. -/
theorem copyUp_eq (m : ℕ → α) (d s n x : ℕ) :
    copyUp m d s n x = if d ≤ x ∧ x < d + n then m (copySource d s (x - d)) else m x := by
  induction n generalizing x with
  | zero => rw [if_neg (by omega)]; rfl
  | succ n ih =>
    unfold copyUp
    by_cases hx : x = d + n
    · subst hx
      rw [Function.update_self, if_pos (by omega), ih, Nat.add_sub_cancel_left]
      by_cases hread : d ≤ s + n ∧ s + n < d + n
      · -- the cell that is read was written before
        rw [if_pos hread, show s + n - d = n - (d - s) by omega, copySource_back (by omega) (by omega)]
      · rw [if_neg hread]
        by_cases hle : d ≤ s
        · rw [copySource_of_le hle]
        · rw [copySource_of_lt (by omega)]
    · rw [Function.update_of_ne hx, ih]
      exact if_congr (by omega) rfl rfl

/-- The first cell may as well be copied by itself. -/
theorem copyUp_succ (m : ℕ → α) (d s n : ℕ) :
    copyUp m d s (n + 1) = copyUp (Function.update m d (m s)) (d + 1) (s + 1) n := by
  induction n with
  | zero => rfl
  | succ n ih =>
    rw [copyUp, ih, copyUp, show d + (n + 1) = d + 1 + n by omega, show s + (n + 1) = s + 1 + n by omega]

/-- The cells of the source arrive as they were exactly when none of them lies before the destination, or the source repeats
itself with the distance of the two. -/
theorem copyUp_exact_iff (m : ℕ → α) (d s n : ℕ) :
    (∀ i, i < n → copyUp m d s n (d + i) = m (s + i)) ↔
      d ≤ s ∨ ∀ i, i + (d - s) < n → m (s + (i + (d - s))) = m (s + i) := by
  have hcell : ∀ i, i < n → copyUp m d s n (d + i) = m (copySource d s i) := fun i hi => by
    rw [copyUp_eq, if_pos (by omega), Nat.add_sub_cancel_left]
  rcases Nat.lt_or_ge s d with hlt | hle
  · have hsource : ∀ i, copySource d s i = s + i % (d - s) := fun i => if_pos hlt
    simp only [show ¬d ≤ s by omega, false_or]
    constructor
    · intro h i hi
      rw [← h (i + (d - s)) hi, ← h i (by omega), hcell _ hi, hcell i (by omega), hsource, hsource, Nat.add_mod_right]
    · intro h i hi
      rw [hcell i hi, hsource]
      induction i using Nat.strong_induction_on with
      | _ i ih =>
        rcases Nat.lt_or_ge i (d - s) with hsmall | hlarge
        · rw [Nat.mod_eq_of_lt hsmall]
        · have hback := h (i - (d - s)) (by omega)
          rw [Nat.sub_add_cancel hlarge] at hback
          rw [hback, Nat.mod_eq_sub_mod hlarge]
          exact ih (i - (d - s)) (by omega) (by omega)
  · refine iff_of_true (fun i hi => ?_) (.inl hle)
    rw [hcell i hi, copySource_of_le hle]

end

end Icarus.Base
