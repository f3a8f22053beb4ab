/-
Runs of labelled steps, and systems of components in which every step is the business of one of them: what becomes of
a component in a run is what its own labels do, in their order, whatever the others did in between.
-/
import Mathlib.Tactic

namespace Icarus.Base

/-- A run with the labels of its steps. -/
inductive Trace {σ L : Type*} (step : σ → L → σ → Prop) : σ → List L → σ → Prop
  | nil (s : σ) : Trace step s [] s
  | cons {s s' s'' : σ} {l : L} {ls : List L} : step s l s' → Trace step s' ls s'' → Trace step s (l :: ls) s''

section
variable {σ L I X : Type*} {step : σ → L → σ → Prop} {s s' s'' : σ} {ls ls' : List L}

theorem Trace.append (h : Trace step s ls s') (h' : Trace step s' ls' s'') : Trace step s (ls ++ ls') s'' := by
  induction h with
  | nil => exact h'
  | cons hstep _ ih => exact .cons hstep (ih h')

/-- What every step keeps holds at the end. -/
theorem Trace.inv (h : Trace step s ls s') {P : σ → Prop} (hstep : ∀ s l s', step s l s' → P s → P s') (hs : P s) :
    P s' := by
  induction h with
  | nil => exact hs
  | cons hl _ ih => exact ih (hstep _ _ _ hl hs)

variable [DecidableEq I]

/-- The labels of one component. -/
def ownLabels (owner : L → I) (i : I) (ls : List L) : List L := ls.filter (owner · = i)

/-- Every step changes the component of its owner, as its label says. -/
def ActsOnOwner (step : σ → L → σ → Prop) (view : σ → I → X) (owner : L → I) (act : L → X → X) : Prop :=
  ∀ s l s', step s l s' → view s' = Function.update (view s) (owner l) (act l (view s (owner l)))

/-- A component at the end of a run. -/
theorem Trace.component {view : σ → I → X} {owner : L → I} {act : L → X → X}
    (hacts : ActsOnOwner step view owner act) (h : Trace step s ls s') (i : I) :
    view s' i = (ownLabels owner i ls).foldl (fun x l => act l x) (view s i) := by
  induction h with
  | nil => rfl
  | @cons s s' s'' l ls hl _ ih =>
    rw [ih, hacts s l s' hl]
    by_cases hi : owner l = i
    · subst hi
      rw [Function.update_self, ownLabels, ownLabels, List.filter_cons_of_pos (by simp), List.foldl_cons]
    · rw [Function.update_of_ne (Ne.symm hi), ownLabels, ownLabels, List.filter_cons_of_neg (by simpa using hi)]

end

/-! ## A disturbance of finite order -/

section
variable {X : Type*} {r : X → X} {fs : List (X → X)}

/-- Where the functions and the disturbance commute, the disturbances may be counted at the end. -/
theorem foldl_disturbed (hcomm : ∀ f ∈ fs, ∀ x, f (r x) = r (f x)) (n : ℕ) (x : X) :
    fs.foldl (fun x f => f x) (r^[n] x) = r^[n] (fs.foldl (fun x f => f x) x) := by
  induction fs generalizing x with
  | nil => rfl
  | cons f fs ih =>
    have hf : f (r^[n] x) = r^[n] (f x) := (Function.Commute.iterate_right (fun x => hcomm f (by simp) x) n).eq x
    rw [List.foldl_cons, List.foldl_cons, hf]
    exact ih (fun g hg => hcomm g (by simp [hg])) (f x)

/-- What three turns bring back, some turns leave exactly if they are a multiple of three or one turn does. -/
theorem iterate_eq_self_iff_of_order_three (h : ∀ x, r (r (r x)) = x) (n : ℕ) (x : X) :
    r^[n] x = x ↔ 3 ∣ n ∨ r x = x := by
  have hthree : r^[3] = id := funext h
  have hmod : r^[n] = r^[n % 3] := by
    conv_lhs => rw [← Nat.mod_add_div n 3, Function.iterate_add, Function.iterate_mul, hthree, Function.iterate_id]
    rfl
  have hlt : n % 3 < 3 := Nat.mod_lt n (by decide)
  rw [hmod, Nat.dvd_iff_mod_eq_zero]
  interval_cases n % 3
  · simp
  · simp
  · constructor
    · intro h2
      right
      have h3 := h x
      rw [show r (r x) = x from h2] at h3
      exact h3
    · rintro (h0 | h1)
      · cases h0
      · show r (r x) = x
        rw [h1, h1]

end

end Icarus.Base
