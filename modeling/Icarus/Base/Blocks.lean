/-
The maximal blocks of equal values of a function on an interval: there is one list of them, and it says what the function
is on the interval and where the interval ends.
-/
import Mathlib.Tactic

namespace Icarus.Base

/-- Cells with one value. -/
structure Block (α : Type*) where
  value : α
  start : ℕ
  stop : ℕ
  deriving DecidableEq, Repr

section
variable {α : Type*} {f g : ℕ → α} {stop stop' i : ℕ} {b : Block α} {bs bs' : List (Block α)}

/-- The maximal blocks of `f` from a place on, up to `stop`. -/
def IsBlocks (f : ℕ → α) (stop : ℕ) : (i : ℕ) → List (Block α) → Prop
  | i, [] => stop ≤ i
  | i, b :: bs =>
    b.start = i ∧ i < b.stop ∧ b.stop ≤ stop ∧ (∀ j, i ≤ j → j < b.stop → f j = b.value) ∧
      (b.stop < stop → f b.stop ≠ b.value) ∧ IsBlocks f stop b.stop bs

/-- No block is empty or passes the end. -/
theorem IsBlocks.mem_le (h : IsBlocks f stop i bs) (hb : b ∈ bs) : b.start < b.stop ∧ b.stop ≤ stop := by
  induction bs generalizing i with
  | nil => exact absurd hb List.not_mem_nil
  | cons c bs ih =>
    obtain ⟨hstart, hlt, hle, -, -, hrest⟩ := h
    rcases List.mem_cons.1 hb with rfl | hb
    · exact ⟨hstart ▸ hlt, hle⟩
    · exact ih hrest hb

/-- Of two first blocks of one function neither is longer. -/
theorem IsBlocks.head_le {b' : Block α} (h : IsBlocks f stop i (b :: bs)) (h' : IsBlocks f stop i (b' :: bs')) :
    b'.stop ≤ b.stop := by
  obtain ⟨-, hlt, -, hsame, hmax, -⟩ := h
  obtain ⟨-, hlt', hle', hsame', -, -⟩ := h'
  by_contra hgt
  have hvalue : b'.value = b.value := (hsame' i le_rfl hlt').symm.trans (hsame i le_rfl hlt)
  exact hmax (by omega) ((hsame' b.stop hlt.le (by omega)).trans hvalue)

/-- There is one list of blocks. -/
theorem IsBlocks.unique (h : IsBlocks f stop i bs) (h' : IsBlocks f stop i bs') : bs = bs' := by
  induction bs generalizing i bs' with
  | nil =>
    cases bs' with
    | nil => rfl
    | cons b' bs' =>
      obtain ⟨-, hlt', hle', -⟩ := h'
      have hend : stop ≤ i := h
      omega
  | cons b bs ih =>
    cases bs' with
    | nil =>
      obtain ⟨-, hlt, hle, -⟩ := h
      have hend : stop ≤ i := h'
      omega
    | cons b' bs' =>
      have hstop : b.stop = b'.stop := le_antisymm (h'.head_le h) (h.head_le h')
      obtain ⟨hstart, hlt, -, hsame, -, hrest⟩ := h
      obtain ⟨hstart', hlt', -, hsame', -, hrest'⟩ := h'
      have hvalue : b.value = b'.value := (hsame i le_rfl hlt).symm.trans (hsame' i le_rfl hlt')
      rw [ih hrest (hstop ▸ hrest')]
      cases b
      cases b'
      simp_all

/-- The blocks say where the interval ends. -/
theorem IsBlocks.stop_eq (h : IsBlocks f stop i bs) (h' : IsBlocks g stop' i bs) (hi : i ≤ stop) (hi' : i ≤ stop') :
    stop = stop' := by
  induction bs generalizing i with
  | nil =>
    have hend : stop ≤ i := h
    have hend' : stop' ≤ i := h'
    omega
  | cons b bs ih =>
    obtain ⟨-, -, hle, -, -, hrest⟩ := h
    obtain ⟨-, -, hle', -, -, hrest'⟩ := h'
    exact ih hrest hrest' hle hle'

/-- The blocks say what the function is. -/
theorem IsBlocks.agree (h : IsBlocks f stop i bs) (h' : IsBlocks g stop i bs) :
    ∀ j, i ≤ j → j < stop → f j = g j := by
  induction bs generalizing i with
  | nil =>
    have hend : stop ≤ i := h
    intro j hj hlt
    omega
  | cons b bs ih =>
    obtain ⟨-, -, -, hsame, -, hrest⟩ := h
    obtain ⟨-, -, -, hsame', -, hrest'⟩ := h'
    intro j hj hlt
    by_cases hin : j < b.stop
    · exact (hsame j hj hin).trans (hsame' j hj hin).symm
    · exact ih hrest hrest' j (by omega) hlt

theorem IsBlocks.congr (h : IsBlocks f stop i bs) (hfg : ∀ j, i ≤ j → j < stop → f j = g j) : IsBlocks g stop i bs := by
  induction bs generalizing i with
  | nil => exact h
  | cons b bs ih =>
    obtain ⟨hstart, hlt, hle, hsame, hmax, hrest⟩ := h
    refine ⟨hstart, hlt, hle, fun j hj hj' => ?_, fun hend => ?_, ih hrest fun j hj => hfg j (by omega)⟩
    · rw [← hfg j hj (by omega)]
      exact hsame j hj hj'
    · rw [← hfg b.stop hlt.le hend]
      exact hmax hend

end

end Icarus.Base
