/-
Runs that use what they were granted before, and lists of addresses with no gap as wide as a page: such a list meets
the same pages as the range from its first address to its last.
-/
import Mathlib.Data.Set.Basic
import Mathlib.Tactic

namespace Icarus.Base

/-! ## Uses and grants -/

/-- A run uses something, or is granted something. -/
inductive Access (α κ : Type)
  | use (a : α)
  | grant (k : κ)
  deriving DecidableEq, Repr

/-- Every use comes behind the grant it needs. -/
def Granted {α κ : Type} (need : α → κ) (es : List (Access α κ)) : Prop :=
  ∀ pre a post, es = pre ++ .use a :: post → .grant (need a) ∈ pre

/-- The same of the rest of a run that was granted `S` before. -/
def GrantedFrom {α κ : Type} (need : α → κ) : Set κ → List (Access α κ) → Prop
  | _, [] => True
  | S, .use a :: es => need a ∈ S ∧ GrantedFrom need S es
  | S, .grant k :: es => GrantedFrom need (insert k S) es

section
variable {α κ : Type} {need : α → κ} {S : Set κ} {es : List (Access α κ)}

@[simp] theorem grantedFrom_nil : GrantedFrom need S [] := trivial

@[simp] theorem grantedFrom_use {a : α} :
    GrantedFrom need S (.use a :: es) ↔ need a ∈ S ∧ GrantedFrom need S es := Iff.rfl

@[simp] theorem grantedFrom_grant {k : κ} :
    GrantedFrom need S (.grant k :: es) ↔ GrantedFrom need (insert k S) es := Iff.rfl

theorem grantedFrom_iff : GrantedFrom need S es ↔
    ∀ pre a post, es = pre ++ .use a :: post → need a ∈ S ∨ .grant (need a) ∈ pre := by
  induction es generalizing S with
  | nil => simp
  | cons e es ih =>
    cases e with
    | use b =>
      rw [grantedFrom_use, ih]
      constructor
      · rintro ⟨hb, hrest⟩ pre a post he
        rcases pre with _ | ⟨e, pre⟩
        · cases he
          exact .inl hb
        · obtain ⟨rfl, hes⟩ := List.cons.inj (he.trans (List.cons_append ..))
          exact (hrest pre a post hes).imp_right (List.mem_cons_of_mem _)
      · intro h
        constructor
        · exact (h [] b es rfl).resolve_right List.not_mem_nil
        · intro pre a post he
          refine (h (.use b :: pre) a post (by rw [he, List.cons_append])).imp_right fun hmem => ?_
          exact (List.mem_cons.1 hmem).resolve_left (by simp)
    | grant k =>
      rw [grantedFrom_grant, ih]
      constructor
      · intro h pre a post he
        rcases pre with _ | ⟨e, pre⟩
        · cases he
        · obtain ⟨rfl, hes⟩ := List.cons.inj (he.trans (List.cons_append ..))
          rcases h pre a post hes with hmem | hmem
          · rcases hmem with heq | hmem
            · exact .inr (heq ▸ List.mem_cons_self)
            · exact .inl hmem
          · exact .inr (List.mem_cons_of_mem _ hmem)
      · intro h pre a post he
        rcases h (.grant k :: pre) a post (by rw [he, List.cons_append]) with hmem | hmem
        · exact .inl (Set.mem_insert_of_mem _ hmem)
        · rcases List.mem_cons.1 hmem with heq | hmem
          · cases heq
            exact .inl (Set.mem_insert _ _)
          · exact .inr hmem

theorem granted_iff : Granted need es ↔ GrantedFrom need ∅ es := by
  rw [grantedFrom_iff]
  simp [Granted]

theorem grantedFrom_uses {as : List α} :
    GrantedFrom need S (as.map .use ++ es) ↔ (∀ a ∈ as, need a ∈ S) ∧ GrantedFrom need S es := by
  induction as with
  | nil => simp
  | cons a as ih =>
    rw [List.map_cons, List.cons_append, grantedFrom_use, ih, List.forall_mem_cons, and_assoc]

theorem grantedFrom_grants {ks : List κ} :
    GrantedFrom need S (ks.map .grant ++ es) ↔ GrantedFrom need (S ∪ {k | k ∈ ks}) es := by
  induction ks generalizing S with
  | nil => simp
  | cons k ks ih =>
    rw [List.map_cons, List.cons_append, grantedFrom_grant, ih]
    refine iff_of_eq (congrArg (GrantedFrom need · es) ?_)
    ext x
    simp only [Set.mem_union, Set.mem_insert_iff, Set.mem_ofPred_eq, List.mem_cons]
    tauto

/-- A use of what no grant of the run is for. -/
theorem not_granted {a : α} (huse : .use a ∈ es) (hgrant : .grant (need a) ∉ es) : ¬Granted need es := by
  intro h
  obtain ⟨pre, post, rfl⟩ := List.append_of_mem huse
  exact hgrant (List.mem_append_left _ (h pre a post rfl))

end

/-! ## Addresses without gaps -/

/-- The addresses lie from `a` up to the end `e`, reach the last one, and each but `a` lies at most `g` behind another.
The end is 0 when there are none. -/
structure Spans (g a e : Nat) (as : List Nat) : Prop where
  bounds : ∀ x ∈ as, a ≤ x ∧ x < e
  last : e ≠ 0 → e - 1 ∈ as
  dense : ∀ x ∈ as, x = a ∨ ∃ y ∈ as, y < x ∧ x ≤ y + g

namespace Spans

section
variable {g a b e e' n x z : Nat} {as bs : List Nat}

theorem nil : Spans g a 0 [] := ⟨by simp, by simp, by simp⟩

theorem range (hg : 0 < g) (hn : 0 < n) : Spans g a (a + n) (List.range' a n) := by
  refine ⟨fun x hx => by rwa [List.mem_range'_1] at hx, fun _ => ?_, fun x hx => ?_⟩
  · rw [List.mem_range'_1]
    omega
  · rw [List.mem_range'_1] at hx
    by_cases heq : x = a
    · exact .inl heq
    · exact .inr ⟨x - 1, by rw [List.mem_range'_1]; omega, by omega, by omega⟩

/-- More addresses, which start at or close behind one that is there. -/
theorem append (h : Spans g a e as) (h' : Spans g b e' bs) (hle : a ≤ b)
    (hlink : bs ≠ [] → b = a ∨ ∃ y ∈ as, y < b ∧ b ≤ y + g) : Spans g a (max e e') (as ++ bs) := by
  refine ⟨fun x hx => ?_, fun he => ?_, fun x hx => ?_⟩
  · rcases List.mem_append.1 hx with hx | hx
    · have hb := h.bounds x hx
      omega
    · have hb := h'.bounds x hx
      omega
  · rcases le_total e e' with hmax | hmax
    · rw [max_eq_right hmax] at he ⊢
      exact List.mem_append_right _ (h'.last he)
    · rw [max_eq_left hmax] at he ⊢
      exact List.mem_append_left _ (h.last he)
  · rcases List.mem_append.1 hx with hx | hx
    · refine (h.dense x hx).imp_right ?_
      rintro ⟨y, hy, hxy⟩
      exact ⟨y, List.mem_append_left _ hy, hxy⟩
    · rcases h'.dense x hx with rfl | ⟨y, hy, hxy⟩
      · refine (hlink (List.ne_nil_of_mem hx)).imp_right ?_
        rintro ⟨y, hy, hxy⟩
        exact ⟨y, List.mem_append_left _ hy, hxy⟩
      · exact .inr ⟨y, List.mem_append_right _ hy, hxy⟩

/-- More addresses from the first one on, some of which may be there. -/
theorem append_range (h : Spans g a e as) (hg : 0 < g) (he : a ≤ e) :
    Spans g a (max e (a + n)) (as ++ List.range' a n) := by
  rcases Nat.eq_zero_or_pos n with rfl | hn
  · rwa [Nat.add_zero, max_eq_left he, List.range'_zero, List.append_nil]
  · exact h.append (.range hg hn) le_rfl fun _ => .inl rfl

/-- Between the first address and one of them no page is left out. -/
theorem same_page (h : Spans g a e as) (hx : a ≤ x) : ∀ z ∈ as, x ≤ z → ∃ y ∈ as, y / g = x / g := by
  intro z
  induction z using Nat.strong_induction_on with
  | _ z ih =>
    intro hz hxz
    by_cases hpage : z / g = x / g
    · exact ⟨z, hz, hpage⟩
    rcases h.dense z hz with rfl | ⟨y, hy, hyz, hgap⟩
    · exact absurd (by rw [le_antisymm hx hxz]) hpage
    by_cases hxy : x ≤ y
    · exact ih y hyz hy hxy
    -- `x` lies between two neighbours, in the page of the lower one
    rcases Nat.eq_zero_or_pos g with rfl | hg
    · omega
    have h1 : y / g ≤ x / g := Nat.div_le_div_right (by omega)
    have h2 : x / g ≤ z / g := Nat.div_le_div_right hxz
    have h3 : z / g ≤ (y + g) / g := Nat.div_le_div_right hgap
    rw [Nat.add_div_right _ hg] at h3
    exact ⟨y, hy, by omega⟩

/-- What holds of all addresses of a page or of none holds of the list as of the range. -/
theorem forall_iff (h : Spans g a e as) {P : Nat → Prop} (hP : ∀ x y, y / g = x / g → P y → P x) :
    (∀ x ∈ as, P x) ↔ ∀ x, a ≤ x → x < e → P x := by
  constructor
  · intro hall x hx hlt
    obtain ⟨y, hy, hpage⟩ := h.same_page hx (e - 1) (h.last (by omega)) (by omega)
    exact hP x y hpage (hall y hy)
  · intro hall x hx
    exact hall x (h.bounds x hx).1 (h.bounds x hx).2

end

end Spans

end Icarus.Base
