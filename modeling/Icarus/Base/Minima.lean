/-
Running minima of a list, and the scan that asks the next element to undercut its best by more than one: it finds the
first of the least elements exactly when the running minima end in an even number of steps of one.
-/
import Mathlib.Tactic

namespace Icarus.Base

/-! ## Running minima -/

/-- One more value behind the running minima, the newest of which is the head. -/
def pushMin : List Nat → Nat → List Nat
  | [], a => [a]
  | m :: ms, a => if a < m then a :: m :: ms else m :: ms

/-- The values of a list that are less than all before them, the last one first. -/
def runningMinima (l : List Nat) : List Nat := l.foldl pushMin []

/-- The number of steps of one that lead down to the newest of the minima. -/
def stairs : List Nat → Nat
  | m :: m' :: ms => if m' = m + 1 then stairs (m' :: ms) + 1 else 0
  | _ => 0

theorem runningMinima_append (l : List Nat) (a : Nat) : runningMinima (l ++ [a]) = pushMin (runningMinima l) a := by
  unfold runningMinima
  rw [List.foldl_append]
  rfl

/-! ## The first of the least -/

section
variable {α : Type} {key : α → Nat} {l : List α} {x y y' : α}

/-- `y` is the first of the least elements of `l`. -/
def FirstLeast (key : α → Nat) (l : List α) (y : α) : Prop :=
  ∃ xs ys, l = xs ++ y :: ys ∧ (∀ x ∈ xs, key y < key x) ∧ ∀ z ∈ ys, key y ≤ key z

theorem FirstLeast.mem (h : FirstLeast key l y) : y ∈ l := by
  obtain ⟨xs, ys, rfl, -, -⟩ := h
  simp

theorem FirstLeast.le (h : FirstLeast key l y) (hx : x ∈ l) : key y ≤ key x := by
  obtain ⟨xs, ys, rfl, hxs, hys⟩ := h
  rcases List.mem_append.1 hx with hx | hx
  · exact (hxs x hx).le
  · rcases List.mem_cons.1 hx with rfl | hx
    · exact le_rfl
    · exact hys x hx

theorem FirstLeast.key_eq (h : FirstLeast key l y) (h' : FirstLeast key l y') : key y = key y' :=
  le_antisymm (h.le h'.mem) (h'.le h.mem)

theorem firstLeast_singleton (key : α → Nat) (x : α) : FirstLeast key [x] x := ⟨[], [], rfl, by simp, by simp⟩

/-- An element behind the others is the least, or the least stays what it was. -/
theorem FirstLeast.append (h : FirstLeast key l y) (x : α) :
    FirstLeast key (l ++ [x]) (if key x < key y then x else y) := by
  split_ifs with hlt
  · exact ⟨l, [], rfl, fun z hz => hlt.trans_le (h.le hz), by simp⟩
  · obtain ⟨xs, ys, rfl, hxs, hys⟩ := h
    refine ⟨xs, ys ++ [x], by simp, hxs, ?_⟩
    intro z hz
    rcases List.mem_append.1 hz with hz | hz
    · exact hys z hz
    · rw [List.mem_singleton.1 hz]
      exact Nat.le_of_not_lt hlt

/-- Elements above a bound do not matter when there is one below it. -/
theorem firstLeast_filter {max : Nat} (hx : x ∈ l) (hlt : key x < max) :
    FirstLeast key (l.filter (key · < max)) y ↔ FirstLeast key l y := by
  constructor
  · rintro ⟨xs, ys, he, hxs, hys⟩
    obtain ⟨as, bs, rfl, has, hbs⟩ := List.filter_eq_append_iff.1 he
    subst has
    obtain ⟨cs, ds, rfl, hcs, hy, hds⟩ := List.filter_eq_cons_iff.1 hbs
    subst hds
    simp only [decide_eq_true_eq] at hcs hy
    refine ⟨as ++ cs, ds, by simp, fun z hz => ?_, fun z hz => ?_⟩
    · by_cases hz' : key z < max
      · rcases List.mem_append.1 hz with hz | hz
        · exact hxs z (List.mem_filter.2 ⟨hz, decide_eq_true hz'⟩)
        · exact absurd hz' (hcs z hz)
      · omega
    · by_cases hz' : key z < max
      · exact hys z (List.mem_filter.2 ⟨hz, decide_eq_true hz'⟩)
      · omega
  · intro h
    have hy := h.le hx
    obtain ⟨xs, ys, rfl, hxs, hys⟩ := h
    refine ⟨xs.filter (key · < max), ys.filter (key · < max), ?_, ?_, ?_⟩
    · rw [List.filter_append, List.filter_cons_of_pos (by simpa using hy.trans_lt hlt)]
    · exact fun z hz => hxs z (List.mem_filter.1 hz).1
    · exact fun z hz => hys z (List.mem_filter.1 hz).1

/-! ## The scan -/

/-- The scan keeps its best and the value the next one has to undercut, which is one less than the best. -/
def lowerScan (key : α → Nat) (r : Option α × Nat) (x : α) : Option α × Nat :=
  if key x < r.2 then (some x, key x - 1) else r

/-- What the scan holds after elements with the running minima `ms`, the newest of which `y` has. -/
structure Scanned (key : α → Nat) (ms : List Nat) (y : α) (r : Option α × Nat) : Prop where
  newest : ms.head? = some (key y)
  even : Even (stairs ms) → r = (some y, key y - 1)
  odd : ¬Even (stairs ms) → ∃ b, r = (some b, key y) ∧ key b = key y + 1

/-- What is not below the start is passed over. -/
theorem foldl_lowerScan_filter {max : Nat} (l : List α) {r : Option α × Nat} (hr : r.2 ≤ max) :
    (l.filter (key · < max)).foldl (lowerScan key) r = l.foldl (lowerScan key) r := by
  induction l generalizing r with
  | nil => rfl
  | cons x l ih =>
    have hle : (lowerScan key r x).2 ≤ max := by
      unfold lowerScan
      split_ifs with hx
      · exact (Nat.sub_le _ 1).trans (hx.le.trans hr)
      · exact hr
    by_cases hx : key x < max
    · rw [List.filter_cons_of_pos (by simpa using hx)]
      exact ih hle
    · rw [List.filter_cons_of_neg (by simpa using hx), ih hr, List.foldl_cons, lowerScan, if_neg (by omega)]

theorem scanned_start {max : Nat} (r : Option α) (h : key x < max) :
    Scanned key (pushMin [] (key x)) x (lowerScan key (r, max) x) := by
  refine ⟨rfl, fun _ => if_pos h, fun ho => absurd ?_ ho⟩
  exact ⟨0, rfl⟩

theorem Scanned.next {ms : List Nat} {r : Option α × Nat} (h : Scanned key ms y r) (x : α) :
    Scanned key (pushMin ms (key x)) (if key x < key y then x else y) (lowerScan key r x) := by
  obtain ⟨rest, rfl⟩ := List.head?_eq_some_iff.1 h.newest
  show Scanned key (if key x < key y then key x :: key y :: rest else key y :: rest) _ _
  unfold lowerScan
  split_ifs with hlt hr hr
  · -- a new minimum that the scan takes: the stairs end before it or go on from an odd number of steps
    have heven : Even (stairs (key x :: key y :: rest)) := by
      unfold stairs
      split_ifs with hstep
      · by_contra hodd
        rw [Nat.even_add_one, not_not] at hodd
        rw [h.even hodd] at hr
        dsimp only at hr
        omega
      · exact ⟨0, rfl⟩
    exact ⟨rfl, fun _ => rfl, fun ho => absurd heven ho⟩
  · -- a new minimum one below the best is passed over
    by_cases heven : Even (stairs (key y :: rest))
    · have hstep : key y = key x + 1 := by
        rw [h.even heven] at hr
        dsimp only at hr
        omega
      have hodd : ¬Even (stairs (key x :: key y :: rest)) := by
        unfold stairs
        rw [if_pos hstep, Nat.even_add_one, not_not]
        exact heven
      refine ⟨rfl, fun he => absurd he hodd, fun _ => ⟨y, ?_, hstep⟩⟩
      rw [h.even heven, hstep]
      rfl
    · obtain ⟨b, hb, -⟩ := h.odd heven
      rw [hb] at hr
      exact absurd hlt hr
  · exfalso
    by_cases heven : Even (stairs (key y :: rest))
    · rw [h.even heven] at hr
      dsimp only at hr
      omega
    · obtain ⟨b, hb, -⟩ := h.odd heven
      rw [hb] at hr
      exact hlt hr
  · exact h

/-- From elements that are all below its start the scan finds the first least one, or one with a value one above it. -/
theorem scanned_foldl {max : Nat} (r : Option α) (hl : l ≠ []) (h : ∀ x ∈ l, key x < max) :
    ∃ y, FirstLeast key l y ∧ Scanned key (runningMinima (l.map key)) y (l.foldl (lowerScan key) (r, max)) := by
  induction l using List.reverseRecOn with
  | nil => exact absurd rfl hl
  | append_singleton l x ih =>
    rw [List.map_append, List.foldl_append]
    show ∃ y, _ ∧ Scanned key (runningMinima (l.map key ++ [key x])) y (lowerScan key _ x)
    rw [runningMinima_append]
    by_cases hnil : l = []
    · subst hnil
      exact ⟨x, firstLeast_singleton key x, scanned_start r (h x (by simp))⟩
    · obtain ⟨y, hy, hscan⟩ := ih hnil fun z hz => h z (List.mem_append_left _ hz)
      exact ⟨_, hy.append x, hscan.next x⟩

end

end Icarus.Base
