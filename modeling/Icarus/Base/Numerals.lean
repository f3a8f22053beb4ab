/-
Numerals as text: the digits of a number from the lowest on, as a loop of divisions produces them, and what such a text
reads back as from the highest on.
-/
import Mathlib.Data.Nat.Digits.Lemmas
import Mathlib.Tactic

namespace Icarus.Base

/-- The digits that a loop of divisions produces which ends when nothing is left: 0 has one digit. -/
def lowDigits (base v : Nat) : List Nat := v % base :: Nat.digits base (v / base)

/-- Reads a text from its first character on, with `acc` in front of it. -/
def readFrom {α : Type} (value : α → Option Nat) (base : Nat) : (acc : Nat) → List α → Option Nat
  | acc, [] => some acc
  | acc, c :: cs =>
    match value c with
    | none => none
    | some d => if d < base then readFrom value base (acc * base + d) cs else none

/-- The text is the numeral of `v`: it has a digit, reads back as `v` and starts with 0 only if there is nothing else. -/
structure IsNumeral {α : Type} (value : α → Option Nat) (base v : Nat) (cs : List α) : Prop where
  ne_nil : cs ≠ []
  reads : readFrom value base 0 cs = some v
  canonical : ∀ c, cs.head? = some c → value c = some 0 → cs = [c]

section
variable {base v n : Nat}

/-- One division more. -/
theorem lowDigits_of_pos (hb : 1 < base) (h : 0 < v / base) :
    lowDigits base v = v % base :: lowDigits base (v / base) := by
  unfold lowDigits
  rw [Nat.digits_def' hb h]

theorem lowDigits_of_zero (h : v / base = 0) : lowDigits base v = [v % base] := by
  unfold lowDigits
  rw [h, Nat.digits_zero]

theorem lowDigits_lt (hb : 1 < base) : ∀ d ∈ lowDigits base v, d < base := by
  intro d hd
  rcases List.mem_cons.1 hd with rfl | hd
  · exact Nat.mod_lt _ (by omega)
  · exact Nat.digits_lt_base hb hd

theorem ofDigits_lowDigits : Nat.ofDigits base (lowDigits base v) = v := by
  unfold lowDigits
  rw [Nat.ofDigits_cons, Nat.ofDigits_digits]
  exact Nat.mod_add_div v base

theorem lowDigits_length_le (hb : 1 < base) (h : v < base ^ (n + 1)) : (lowDigits base v).length ≤ n + 1 := by
  have hdiv : v / base < base ^ n := Nat.div_lt_of_lt_mul (by rwa [← pow_succ'])
  exact Nat.succ_le_succ ((Nat.digits_length_le_iff hb _).2 hdiv)

/-- The highest digit is 0 only if there is no other. -/
theorem lowDigits_getLast? (h : (lowDigits base v).getLast? = some 0) : lowDigits base v = [0] := by
  by_cases hdiv : v / base = 0
  · rw [lowDigits_of_zero hdiv] at h
    have hzero : v % base = 0 := Option.some.inj h
    rw [lowDigits_of_zero hdiv, hzero]
  · have hne : Nat.digits base (v / base) ≠ [] := Nat.digits_ne_nil_iff_ne_zero.2 hdiv
    have hlast : (lowDigits base v).getLast? = some ((Nat.digits base (v / base)).getLast hne) := by
      unfold lowDigits
      rw [List.getLast?_cons_of_ne_nil hne, List.getLast?_eq_getLast_of_ne_nil hne]
    rw [hlast] at h
    exact absurd (Option.some.inj h) (Nat.getLast_digit_ne_zero base hdiv)

end

section
variable {α : Type} {value : α → Option Nat} {base acc : Nat}

theorem readFrom_append {xs ys : List α} :
    readFrom value base acc (xs ++ ys) = (readFrom value base acc xs).bind (readFrom value base · ys) := by
  induction xs generalizing acc with
  | nil => rfl
  | cons c xs ih =>
    rw [List.cons_append, readFrom, readFrom]
    cases value c with
    | none => rfl
    | some d =>
      dsimp only
      split_ifs
      · exact ih
      · rfl

variable {char : Nat → α}

/-- Digits are read back from the highest on. -/
theorem readFrom_reverse (hchar : ∀ d < base, value (char d) = some d) {ds : List Nat} (hds : ∀ d ∈ ds, d < base) :
    readFrom value base 0 (ds.map char).reverse = some (Nat.ofDigits base ds) := by
  induction ds with
  | nil => rfl
  | cons d ds ih =>
    obtain ⟨hd, hds⟩ := List.forall_mem_cons.1 hds
    have hlast : readFrom value base (Nat.ofDigits base ds) [char d] = some (Nat.ofDigits base ds * base + d) := by
      rw [readFrom, hchar d hd]
      dsimp only
      rw [if_pos hd, readFrom]
    rw [List.map_cons, List.reverse_cons, readFrom_append, ih hds, Option.bind_some, hlast, Nat.ofDigits_cons, Nat.mul_comm,
      Nat.add_comm]

/-- The digits of a number, turned around, are its numeral. -/
theorem isNumeral_lowDigits (hb : 1 < base) (hchar : ∀ d < base, value (char d) = some d) (v : Nat) :
    IsNumeral value base v ((lowDigits base v).map char).reverse := by
  refine ⟨by simp [lowDigits], ?_, ?_⟩
  · rw [readFrom_reverse hchar (lowDigits_lt hb), ofDigits_lowDigits]
  · intro c hhead hzero
    rw [List.head?_reverse, List.getLast?_map] at hhead
    obtain ⟨d, hlast, rfl⟩ := Option.map_eq_some_iff.1 hhead
    have hd : d < base := lowDigits_lt hb d (List.mem_of_getLast? hlast)
    obtain rfl : d = 0 := Option.some.inj ((hchar d hd).symm.trans hzero)
    rw [lowDigits_getLast? hlast]
    rfl

end

end Icarus.Base
