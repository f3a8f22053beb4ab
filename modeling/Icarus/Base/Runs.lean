/-
Runs of free cells: the least start of a run of a given length, how a scan that proceeds word by
word carries a run from one word into the next, and how shifting a word over itself finds the
starts of all runs inside it.
-/
import Mathlib.Tactic

namespace Icarus.Base

/-! ## Runs -/

/-- The cells `[i, i + n)` are free. -/
def IsRun (free : ℕ → Prop) (i n : ℕ) : Prop := ∀ j, j < n → free (i + j)

/-- No run of `n` free cells ends by `bound`. -/
def NoRun (free : ℕ → Prop) (bound n : ℕ) : Prop := ∀ k, k + n ≤ bound → ¬ IsRun free k n

/-- `i` is the least start of a run of `n` free cells, and the run ends by `bound`. -/
structure FirstRun (free : ℕ → Prop) (bound n i : ℕ) : Prop where
  run : IsRun free i n
  fits : i + n ≤ bound
  least : ∀ k, k < i → ¬ IsRun free k n

theorem IsRun.not_of_blocked {free : ℕ → Prop} {k n b : ℕ} (hb : ¬ free b) (h1 : k ≤ b)
    (h2 : b < k + n) : ¬ IsRun free k n := by
  intro h
  apply hb
  have := h (b - k) (by omega)
  rwa [show k + (b - k) = b by omega] at this

theorem FirstRun.mono {free : ℕ → Prop} {b b' n i : ℕ} (h : FirstRun free b n i) (hb : b ≤ b') :
    FirstRun free b' n i :=
  ⟨h.run, le_trans h.fits hb, h.least⟩

theorem FirstRun.unique {free : ℕ → Prop} {b n i k : ℕ} (hi : FirstRun free b n i)
    (hk : FirstRun free b n k) : i = k := by
  rcases Nat.lt_trichotomy i k with h | h | h
  · exact absurd hi.run (hk.least i h)
  · exact h
  · exact absurd hk.run (hi.least k h)

theorem NoRun.not_firstRun {free : ℕ → Prop} {b n i : ℕ} (h : NoRun free b n) :
    ¬ FirstRun free b n i :=
  fun hi => h i hi.fits hi.run

/-! ## The carried run -/

/-- The state of a left-to-right scan at cell `pos` in which no run of `n` cells has ended yet:
the maximal free run that ends at `pos` has `c` cells. -/
structure Carry (free : ℕ → Prop) (n pos c : ℕ) : Prop where
  le : c ≤ pos
  run : IsRun free (pos - c) c
  maximal : c < pos → ¬ free (pos - c - 1)
  noRun : NoRun free pos n

theorem Carry.zero (free : ℕ → Prop) {n : ℕ} (hn : 0 < n) : Carry free n 0 0 :=
  ⟨le_refl 0, fun j hj => by omega, fun h => by omega, fun k hk => by omega⟩

/-- The carried run is too short. -/
theorem Carry.lt {free : ℕ → Prop} {n pos c : ℕ} (h : Carry free n pos c) : c < n := by
  by_contra hge
  have hle := h.le
  apply h.noRun (pos - n) (by omega)
  intro j hj
  have := h.run (c - n + j) (by omega)
  rwa [show pos - c + (c - n + j) = pos - n + j by omega] at this

/-- A run that reaches beyond `pos` starts inside the carried run. -/
theorem Carry.start_ge {free : ℕ → Prop} {n pos c k : ℕ} (h : Carry free n pos c)
    (hk : IsRun free k n) : pos - c ≤ k := by
  by_contra hlt
  push Not at hlt
  have hblock := h.maximal (by omega)
  by_cases hend : k + n ≤ pos
  · exact h.noRun k hend hk
  · exact IsRun.not_of_blocked hblock (by omega) (by omega) hk

/-- The carried run and the free cells right after `pos` make the first run. -/
theorem Carry.firstRun {free : ℕ → Prop} {n pos c l : ℕ} (h : Carry free n pos c)
    (hl : IsRun free pos l) (hn : n ≤ c + l) : FirstRun free (pos + l) n (pos - c) := by
  have hle := h.le
  refine ⟨?_, by omega, ?_⟩
  · intro j hj
    by_cases hjc : j < c
    · exact h.run j hjc
    · have := hl (j - c) (by omega)
      rwa [show pos + (j - c) = pos - c + j by omega] at this
  · intro k hk hrun
    have := h.start_ge hrun
    omega

/-- A wholly free word lengthens the carried run. -/
theorem Carry.free_word {free : ℕ → Prop} {n pos c w : ℕ} (h : Carry free n pos c)
    (hw : IsRun free pos w) (hn : c + w < n) : Carry free n (pos + w) (c + w) := by
  have hle := h.le
  have heq : pos + w - (c + w) = pos - c := by omega
  refine ⟨by omega, ?_, ?_, ?_⟩
  · rw [heq]
    intro j hj
    by_cases hjc : j < c
    · exact h.run j hjc
    · have := hw (j - c) (by omega)
      rwa [show pos + (j - c) = pos - c + j by omega] at this
  · rw [heq]
    intro _
    exact h.maximal (by omega)
  · intro k hk hrun
    have := h.start_ge hrun
    omega

/-- With a blocked cell at `pos + l` that the carried run cannot get past, a run that starts
before `pos` is too long. -/
theorem Carry.start_ge_pos {free : ℕ → Prop} {n pos c l k : ℕ} (h : Carry free n pos c)
    (hb : ¬ free (pos + l)) (hn : c + l < n) (hk : IsRun free k n) : pos ≤ k := by
  by_contra hlt
  have hge := h.start_ge hk
  exact IsRun.not_of_blocked hb (by omega) (by omega) hk

/-- The first run inside a word is the first run of the scan. -/
theorem Carry.firstRun_in_word {free : ℕ → Prop} {n pos c l w i : ℕ} (h : Carry free n pos c)
    (hb : ¬ free (pos + l)) (hn : c + l < n)
    (hi : FirstRun (fun j => free (pos + j)) w n i) : FirstRun free (pos + w) n (pos + i) := by
  refine ⟨?_, by have := hi.fits; omega, ?_⟩
  · intro j hj
    have := hi.run j hj
    rwa [← Nat.add_assoc] at this
  · intro k hk hrun
    have hpos := h.start_ge_pos hb hn hrun
    apply hi.least (k - pos) (by omega)
    intro j hj
    have := hrun j hj
    rwa [show k + j = pos + (k - pos + j) by omega] at this

/-- A word with a blocked cell and no run inside carries on its free tail. -/
theorem Carry.blocked_word {free : ℕ → Prop} {n pos c l w t : ℕ} (h : Carry free n pos c)
    (hb : ¬ free (pos + l)) (hn : c + l < n) (hno : NoRun (fun j => free (pos + j)) w n)
    (htw : t < w) (ht : IsRun free (pos + w - t) t) (hbt : ¬ free (pos + w - t - 1)) :
    Carry free n (pos + w) t := by
  refine ⟨by omega, ht, fun _ => hbt, ?_⟩
  intro k hk hrun
  have hpos := h.start_ge_pos hb hn hrun
  apply hno (k - pos) (by omega)
  intro j hj
  have := hrun j hj
  rwa [show k + j = pos + (k - pos + j) by omega] at this

/-! ## Runs inside a word -/

/-- Bit `i` of `M` says that `x` has a run of `c` set bits from bit `i` on. -/
def RunMask {w : ℕ} (x : BitVec w) (c : ℕ) (M : BitVec w) : Prop :=
  ∀ i, M.getLsbD i = true ↔ IsRun (fun j => x.getLsbD j = true) i c

theorem RunMask.one {w : ℕ} (x : BitVec w) : RunMask x 1 x := by
  intro i
  constructor
  · intro h j hj
    rwa [show i + j = i by omega]
  · intro h
    exact h 0 (by omega)

/-- Two runs of `c` at a distance of at most `c` make one longer run. -/
theorem RunMask.shift {w : ℕ} {x M : BitVec w} {c d : ℕ} (h : RunMask x c M) (hd : d ≤ c) :
    RunMask x (c + d) (M &&& (M >>> d)) := by
  intro i
  rw [BitVec.getLsbD_and, BitVec.getLsbD_ushiftRight, Bool.and_eq_true, h i, h (d + i)]
  constructor
  · rintro ⟨h1, h2⟩ j hj
    by_cases hjc : j < c
    · exact h1 j hjc
    · have := h2 (j - d) (by omega)
      rwa [show d + i + (j - d) = i + j by omega] at this
  · intro hrun
    refine ⟨fun j hj => hrun j (by omega), fun j hj => ?_⟩
    have := hrun (d + j) (by omega)
    rwa [show i + (d + j) = d + i + j by omega] at this

/-- The lowest set bit of the mask is the first run. -/
theorem RunMask.firstRun {w : ℕ} {x M : BitVec w} {n : ℕ} (h : RunMask x n M) (hn : 0 < n)
    (hM : M ≠ 0#w) : FirstRun (fun j => x.getLsbD j = true) w n M.ctz.toNat := by
  have hrun := (h _).1 (BitVec.getLsbD_true_ctz_of_ne_zero hM)
  refine ⟨hrun, ?_, ?_⟩
  · have hlast := hrun (n - 1) (by omega)
    have := BitVec.lt_of_getLsbD hlast
    omega
  · intro k hk hrun'
    have := BitVec.getLsbD_false_of_lt_ctz hk
    rw [(h k).2 hrun'] at this
    cases this

theorem RunMask.noRun {w : ℕ} {x M : BitVec w} {n b : ℕ} (h : RunMask x n M) (hM : M = 0#w) :
    NoRun (fun j => x.getLsbD j = true) b n := by
  intro k _ hrun
  have := (h k).2 hrun
  rw [hM] at this
  simp at this

end Icarus.Base
