/-
Programs that talk to a partner whose answers they cannot foresee: a program is the tree of what it asks next for each
answer. What all of its exchanges have in common is put together from its parts, and so is what it comes to with any
partner that keeps to given rules.
-/
import Mathlib.Data.List.Infix
import Mathlib.Tactic

namespace Icarus.Base

/-- A program that asks `op`, and goes on with the answer. -/
inductive Dialogue (Op : Type) (Ans : Op → Type) (α : Type) : Type
  | done (a : α)
  | ask (op : Op) (next : Ans op → Dialogue Op Ans α)

/-- One question with its answer. -/
structure Exchange (Op : Type) (Ans : Op → Type) where
  op : Op
  ans : Ans op

namespace Dialogue

section
variable {Op : Type} {Ans : Op → Type} {α β σ : Type}

/-- One program after the other. -/
def andThen : Dialogue Op Ans α → (α → Dialogue Op Ans β) → Dialogue Op Ans β
  | done a, f => f a
  | ask op next, f => ask op fun v => andThen (next v) f

instance : Monad (Dialogue Op Ans) where
  pure := done
  bind := andThen

/-! ## Exchanges -/

/-- With these exchanges the program comes to the result. -/
inductive Talk : Dialogue Op Ans α → List (Exchange Op Ans) → α → Prop
  | done (a : α) : Talk (.done a) [] a
  | ask {op : Op} {next : Ans op → Dialogue Op Ans α} {v : Ans op} {es : List (Exchange Op Ans)} {a : α} :
      Talk (next v) es a → Talk (.ask op next) (⟨op, v⟩ :: es) a

variable {x : Dialogue Op Ans α} {f : α → Dialogue Op Ans β} {es : List (Exchange Op Ans)} {a : α} {b : β}

@[simp] theorem talk_pure {a' : α} : Talk (pure a : Dialogue Op Ans α) es a' ↔ es = [] ∧ a' = a := by
  constructor
  · intro h
    cases h
    exact ⟨rfl, rfl⟩
  · rintro ⟨rfl, rfl⟩
    exact .done a'

theorem talk_ask {op : Op} {next : Ans op → Dialogue Op Ans α} :
    Talk (.ask op next) es a ↔ ∃ v es', es = ⟨op, v⟩ :: es' ∧ Talk (next v) es' a := by
  constructor
  · intro h
    cases h with
    | ask h => exact ⟨_, _, rfl, h⟩
  · rintro ⟨v, es', rfl, h⟩
    exact .ask h

/-- A program that asks once. -/
theorem talk_once {op : Op} {v : Ans op} : Talk (.ask op done) es v ↔ es = [⟨op, v⟩] := by
  rw [talk_ask]
  constructor
  · rintro ⟨v', es', rfl, h⟩
    cases h
    rfl
  · rintro rfl
    exact ⟨v, [], rfl, .done v⟩

theorem talk_bind : Talk (x >>= f) es b ↔ ∃ es₁ a es₂, es = es₁ ++ es₂ ∧ Talk x es₁ a ∧ Talk (f a) es₂ b := by
  show Talk (andThen x f) es b ↔ _
  induction x generalizing es with
  | done a =>
    unfold andThen
    constructor
    · exact fun h => ⟨[], a, es, rfl, .done a, h⟩
    · rintro ⟨es₁, a', es₂, rfl, h₁, h₂⟩
      cases h₁
      exact h₂
  | ask op next ih =>
    unfold andThen
    rw [talk_ask]
    constructor
    · rintro ⟨v, es', rfl, h⟩
      obtain ⟨es₁, a, es₂, rfl, h₁, h₂⟩ := (ih v).1 h
      exact ⟨_, a, es₂, rfl, .ask h₁, h₂⟩
    · rintro ⟨es₁, a, es₂, rfl, h₁, h₂⟩
      cases h₁ with
      | ask h₁ => exact ⟨_, _, rfl, (ih _).2 ⟨_, a, es₂, rfl, h₁, h₂⟩⟩

/-! ## Partners -/

/-- A partner comes from one state to another by an exchange. -/
abbrev Partner (Op : Type) (Ans : Op → Type) (σ : Type) := σ → Exchange Op Ans → σ → Prop

/-- The partner goes along with these exchanges. -/
inductive Along (p : Partner Op Ans σ) : σ → List (Exchange Op Ans) → σ → Prop
  | nil (s : σ) : Along p s [] s
  | cons {s s' s'' : σ} {e : Exchange Op Ans} {es : List (Exchange Op Ans)} :
      p s e s' → Along p s' es s'' → Along p s (e :: es) s''

/-- Whatever the partner answers, the program comes to a result and leaves the partner in a state as `Q` says. -/
def Ends (p : Partner Op Ans σ) (Q : α → σ → Prop) : Dialogue Op Ans α → σ → Prop
  | done a, s => Q a s
  | ask op next, s => ∀ v s', p s ⟨op, v⟩ s' → Ends p Q (next v) s'

/-- It does so from all states as `P` says. -/
def Meets (p : Partner Op Ans σ) (P : σ → Prop) (x : Dialogue Op Ans α) (Q : α → σ → Prop) : Prop :=
  ∀ s, P s → Ends p Q x s

variable {p : Partner Op Ans σ} {P P' : σ → Prop} {Q Q' : α → σ → Prop} {R : β → σ → Prop} {s : σ}

theorem Ends.mono (h : Ends p Q x s) (hQ : ∀ a s, Q a s → Q' a s) : Ends p Q' x s := by
  induction x generalizing s with
  | done a => exact hQ a s h
  | ask op next ih => exact fun v s' hstep => ih v (h v s' hstep)

theorem ends_bind : Ends p R (x >>= f) s ↔ Ends p (fun a => Ends p R (f a)) x s := by
  show Ends p R (andThen x f) s ↔ _
  induction x generalizing s with
  | done a => rfl
  | ask op next ih => exact forall_congr' fun v => forall_congr' fun s' => forall_congr' fun _ => ih v

/-- That is what it comes to in every conversation with the partner. -/
theorem ends_iff : Ends p Q x s ↔ ∀ es a s', Talk x es a → Along p s es s' → Q a s' := by
  induction x generalizing s with
  | done a =>
    constructor
    · intro h es a' s' htalk halong
      cases htalk
      cases halong
      exact h
    · exact fun h => h [] a s (.done a) (.nil s)
  | ask op next ih =>
    constructor
    · intro h es a s' htalk halong
      cases htalk with
      | ask htalk =>
        cases halong with
        | cons hstep halong => exact (ih _).1 (h _ _ hstep) _ _ _ htalk halong
    · exact fun h v s' hstep => (ih v).2 fun es a s'' htalk halong => h _ a s'' (.ask htalk) (.cons hstep halong)

/-- With a partner that always answers there is such a conversation. -/
theorem exists_talk (hp : ∀ s op, ∃ v s', p s ⟨op, v⟩ s') (x : Dialogue Op Ans α) (s : σ) :
    ∃ es a s', Talk x es a ∧ Along p s es s' := by
  induction x generalizing s with
  | done a => exact ⟨[], a, s, .done a, .nil s⟩
  | ask op next ih =>
    obtain ⟨v, s₁, hstep⟩ := hp s op
    obtain ⟨es, a, s', htalk, halong⟩ := ih v s₁
    exact ⟨_, a, s', .ask htalk, .cons hstep halong⟩

/-- A program as part of one that can ask more. -/
def inl {Op' : Type} {Ans' : Op' → Type} : Dialogue Op Ans α → Dialogue (Op ⊕ Op') (Sum.elim Ans Ans') α
  | done a => done a
  | ask op next => ask (.inl op) fun v => inl (next v)

theorem ends_inl {Op' : Type} {Ans' : Op' → Type} {p : Partner (Op ⊕ Op') (Sum.elim Ans Ans') σ} :
    Ends p Q (inl x) s ↔ Ends (fun s e s' => p s ⟨.inl e.op, e.ans⟩ s') Q x s := by
  induction x generalizing s with
  | done a => rfl
  | ask op next ih => exact forall_congr' fun v => forall_congr' fun s' => forall_congr' fun _ => ih v

namespace Meets

theorem pure (h : ∀ s, P s → Q a s) : Meets p P (Pure.pure a) Q := h

theorem bind (hx : Meets p P x Q) (hf : ∀ a, Meets p (Q a) (f a) R) : Meets p P (x >>= f) R :=
  fun s hs => ends_bind.2 ((hx s hs).mono fun a s' ha => hf a s' ha)

theorem weaken (h : Meets p P x Q) (hP : ∀ s, P' s → P s) (hQ : ∀ a s, Q a s → Q' a s) : Meets p P' x Q' :=
  fun s hs => (h s (hP s hs)).mono hQ

end Meets

end

end Dialogue

/-! ## Guards -/

/-- How many of the events need a guard right before them and do not have it; the one before the first is a guard or
not. -/
def unguarded {ε : Type} (needs guards : ε → Bool) : (guarded : Bool) → List ε → Nat
  | _, [] => 0
  | guarded, e :: es => (if needs e && !guarded then 1 else 0) + unguarded needs guards (guards e) es

section
variable {ε : Type} {needs guards : ε → Bool} {es es' : List ε} {e : ε}

theorem unguarded_eq_zero (h : ∀ e ∈ es, needs e = false) (g : Bool) : unguarded needs guards g es = 0 := by
  induction es generalizing g with
  | nil => rfl
  | cons e es ih =>
    rw [unguarded, h e List.mem_cons_self, ih fun e' he' => h e' (List.mem_cons_of_mem e he')]
    rfl

theorem unguarded_le (g : Bool) (es : List ε) : unguarded needs guards g es ≤ unguarded needs guards false es := by
  cases es with
  | nil => exact le_rfl
  | cons e es =>
    unfold unguarded
    cases g <;> cases needs e <;> simp

/-- The parts of a list are guarded each for itself. -/
theorem unguarded_append (g : Bool) (es es' : List ε) : unguarded needs guards g (es ++ es') ≤
    unguarded needs guards g es + unguarded needs guards false es' := by
  induction es generalizing g with
  | nil =>
    rw [List.nil_append, unguarded, Nat.zero_add]
    exact unguarded_le g es'
  | cons e es ih =>
    rw [List.cons_append, unguarded, unguarded]
    have := ih (guards e)
    omega

end

end Icarus.Base
