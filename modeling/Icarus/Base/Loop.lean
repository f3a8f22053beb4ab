/-
How a run of C code ends: `while` loops with an explicit bound on the number of rounds and the
rule that replaces one by its invariant, and the ways a call does not return.
-/
import Mathlib.Tactic

namespace Icarus.Base

/-- `while (cond s) s = body s`, at most `fuel` rounds. -/
def whileLoop {σ : Type} (cond : σ → Bool) (body : σ → σ) : (fuel : Nat) → σ → σ
  | 0, s => s
  | fuel + 1, s => if cond s then whileLoop cond body fuel (body s) else s

/-- An invariant whose variant each round decreases holds after the loop, and the condition has
become false. -/
theorem whileLoop_spec {σ : Type} (cond : σ → Bool) (body : σ → σ) (Inv : σ → Prop) (variant : σ → Nat)
    (hstep : ∀ s, Inv s → cond s = true → Inv (body s) ∧ variant (body s) < variant s) :
    ∀ (fuel : Nat) (s : σ), Inv s → variant s ≤ fuel →
      Inv (whileLoop cond body fuel s) ∧ cond (whileLoop cond body fuel s) = false
  | fuel, s, hi, hv => by
    cases hc : cond s with
    | false => cases fuel <;> simp [whileLoop, hi, hc]
    | true =>
      obtain ⟨hi', hlt⟩ := hstep s hi hc
      cases fuel with
      | zero => omega
      | succ fuel =>
        unfold whileLoop
        rw [if_pos hc]
        exact whileLoop_spec cond body Inv variant hstep fuel (body s) hi' (by omega)

/-- Two loops whose rounds do the same wherever they come to. -/
theorem whileLoop_congr {σ : Type} (cond : σ → Bool) (body body' : σ → σ) (Inv : σ → Prop)
    (hstep : ∀ s, Inv s → cond s = true → body' s = body s ∧ Inv (body s)) :
    ∀ (fuel : Nat) (s : σ), Inv s → whileLoop cond body' fuel s = whileLoop cond body fuel s ∧
      Inv (whileLoop cond body fuel s)
  | 0, _, hi => ⟨rfl, hi⟩
  | fuel + 1, s, hi => by
    unfold whileLoop
    cases hc : cond s with
    | false => exact ⟨rfl, hi⟩
    | true =>
      obtain ⟨heq, hi'⟩ := hstep s hi hc
      rw [if_pos rfl, if_pos rfl, heq]
      exact whileLoop_congr cond body body' Inv hstep fuel (body s) hi'

/-- A call that does not return: it uses a value that is the address of no object, its loops take
more rounds than they were given, or it stops the processor for good. -/
inductive Fault
  | badAddress (a : Nat)
  | outOfFuel
  | stopped
  deriving DecidableEq, Repr

/-- A sequence of two calls returns when both of them do. -/
theorem bind_eq_ok {ε α β : Type} {x : Except ε α} {f : α → Except ε β} {b : β} :
    (x >>= f) = .ok b ↔ ∃ a, x = .ok a ∧ f a = .ok b := by
  cases x with
  | error e =>
    constructor
    · intro h; cases h
    · rintro ⟨a, h, -⟩; cases h
  | ok a =>
    constructor
    · intro h; exact ⟨a, rfl, h⟩
    · rintro ⟨a', h, h'⟩; cases h; exact h'

/-- The call returns, and what it returns passes the test. -/
def okAnd {ε α : Type} (x : Except ε α) (test : α → Bool) : Bool :=
  match x with
  | .ok a => test a
  | .error _ => false

theorem okAnd_eq_true {ε α : Type} {x : Except ε α} {test : α → Bool} :
    okAnd x test = true ↔ ∃ a, x = .ok a ∧ test a = true := by
  cases x with
  | error e => simp [okAnd]
  | ok a => simp [okAnd]

end Icarus.Base
