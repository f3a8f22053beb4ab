/-
Walks over records that lie one behind the other, where each says at which place the next one starts: whether such a
walk ends, and which places it comes to.
-/
import Mathlib.Logic.Relation
import Mathlib.Tactic

namespace Icarus.Base

/-- The walk from a place on goes over exactly these records and then leaves. -/
inductive Walked {α : Type} (leave : α → Prop) (next : α → α → Prop) : α → List α → Prop
  | leave {a : α} : leave a → Walked leave next a []
  | record {a b : α} {as : List α} : next a b → Walked leave next b as → Walked leave next a (a :: as)

section
variable {α : Type} {leave : α → Prop} {next : α → α → Prop} {a b : α} {as : List α}

/-- A walk whose records are also such of another kind, as far as it goes. -/
theorem Walked.imp {leave' : α → Prop} {next' : α → α → Prop} (Inv : α → Prop) (hleave : ∀ a, Inv a → leave a → leave' a)
    (hnext : ∀ a b, Inv a → next a b → next' a b ∧ Inv b) (ha : Inv a) (h : Walked leave next a as) :
    Walked leave' next' a as := by
  induction h with
  | leave hl => exact .leave (hleave _ ha hl)
  | record hab _ ih =>
    obtain ⟨hab', hb⟩ := hnext _ _ ha hab
    exact .record hab' (ih hb)

/-- A walk does not end where a record leads to itself. -/
theorem not_walked_of_self (hstop : ¬leave a) (hself : ∀ b, next a b → b = a) : ¬Walked leave next a as := by
  intro h
  induction h with
  | leave hl => exact hstop hl
  | record hab _ ih =>
    obtain rfl := hself _ hab
    exact ih hstop hself

/-- A walk ends if every record uses up some of what is left. -/
theorem exists_walked (left : α → Nat) (Inv : α → Prop)
    (h : ∀ a, Inv a → leave a ∨ ∃ b, next a b ∧ Inv b ∧ left b < left a) (a : α) (ha : Inv a) :
    ∃ as, Walked leave next a as := by
  induction hn : left a using Nat.strong_induction_on generalizing a with
  | _ n ih =>
    rcases h a ha with hleave | ⟨b, hnext, hb, hlt⟩
    · exact ⟨[], .leave hleave⟩
    · obtain ⟨as, has⟩ := ih (left b) (hn ▸ hlt) b hb rfl
      exact ⟨a :: as, .record hnext has⟩

/-- A walk that ends, with something that holds wherever it comes to, is a walk over places where it holds. -/
theorem exists_walked_and_iff {step : α → α → Prop} {P : α → Prop} (hsub : ∀ a b, next a b → step a b)
    (hdet : ∀ a b c, step a b → step a c → b = c) (hstop : ∀ a b, leave a → ¬step a b) :
    ((∃ as, Walked leave next a as) ∧ ∀ b, Relation.ReflTransGen step a b → P b) ↔
      ∃ as, Walked (fun a => leave a ∧ P a) (fun a b => next a b ∧ P a) a as := by
  constructor
  · rintro ⟨⟨as, h⟩, hall⟩
    induction h with
    | leave ha => exact ⟨[], .leave ⟨ha, hall _ .refl⟩⟩
    | record hab _ ih =>
      obtain ⟨bs, hbs⟩ := ih fun c hc => hall c (.head (hsub _ _ hab) hc)
      exact ⟨_, .record ⟨hab, hall _ .refl⟩ hbs⟩
  · rintro ⟨as, h⟩
    induction h with
    | leave ha =>
      refine ⟨⟨[], .leave ha.1⟩, fun b hb => ?_⟩
      rcases Relation.ReflTransGen.cases_head hb with rfl | ⟨c, hc, -⟩
      · exact ha.2
      · exact absurd hc (hstop _ _ ha.1)
    | record hab _ ih =>
      obtain ⟨⟨bs, hbs⟩, hall⟩ := ih
      refine ⟨⟨_, .record hab.1 hbs⟩, fun d hd => ?_⟩
      rcases Relation.ReflTransGen.cases_head hd with rfl | ⟨c, hc, hcd⟩
      · exact hab.2
      · rw [hdet _ _ _ hc (hsub _ _ hab.1)] at hcd
        exact hall d hcd

end

end Icarus.Base
