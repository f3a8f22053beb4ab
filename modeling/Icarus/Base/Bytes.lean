/-
Byte memories: little-endian loads and stores of any width, block copy and fill, with the frame
laws that say which bytes each of them leaves alone.
-/
import Mathlib.Logic.Function.Basic
import Mathlib.Tactic.SplitIfs

namespace Icarus.Base

/-- A byte memory. -/
abbrev Mem : Type := Nat → BitVec 8

namespace Mem

/-- The `n` bytes at `a`, the lowest address least significant. -/
def load (m : Mem) (a : Nat) : (n : Nat) → BitVec (8 * n)
  | 0 => 0#0
  | n + 1 => load m (a + 1) n ++ m a

/-- Writes the `n` bytes of `v` at `a`. -/
def store (m : Mem) (a n : Nat) (v : BitVec (8 * n)) : Mem :=
  fun x => if a ≤ x ∧ x < a + n then v.extractLsb' (8 * (x - a)) 8 else m x

/-- A 64 bit load. -/
abbrev load64 (m : Mem) (a : Nat) : BitVec 64 := load m a 8

/-- A 64 bit store. -/
abbrev store64 (m : Mem) (a : Nat) (v : BitVec 64) : Mem := store m a 8 v

/-- The bytes `[s, s + n)` of `src` placed at `d` in `dst`. -/
def copy (dst : Mem) (d : Nat) (src : Mem) (s n : Nat) : Mem :=
  fun x => if d ≤ x ∧ x < d + n then src (s + (x - d)) else dst x

/-- The bytes `[a, a + n)` set to `v`. -/
def fill (m : Mem) (a n : Nat) (v : BitVec 8) : Mem :=
  fun x => if a ≤ x ∧ x < a + n then v else m x

/-- Bit `j` of the memory read as one bit string. -/
def bit (m : Mem) (j : Nat) : Bool := (m (j / 8)).getLsbD (j % 8)

/-! ## Loads read their own bytes -/

theorem load_getLsbD (m : Mem) : ∀ (a n i : Nat), i < 8 * n →
    (load m a n).getLsbD i = (m (a + i / 8)).getLsbD (i % 8)
  | a, 0, i, h => by omega
  | a, n + 1, i, h => by
    have happ : (load m a (n + 1)).getLsbD i = (load m (a + 1) n ++ m a).getLsbD i := rfl
    rw [happ, BitVec.getLsbD_append]
    split_ifs with hi
    · rw [Nat.div_eq_of_lt hi, Nat.mod_eq_of_lt hi, Nat.add_zero]
    · rw [load_getLsbD m (a + 1) n (i - 8) (by omega)]
      rw [show a + 1 + (i - 8) / 8 = a + i / 8 by omega, show (i - 8) % 8 = i % 8 by omega]

theorem load64_bit (m : Mem) (a : Nat) {i : Nat} (hi : i < 64) :
    (load64 m a).getLsbD i = m.bit (8 * a + i) := by
  rw [load_getLsbD m a 8 i hi, bit, show (8 * a + i) / 8 = a + i / 8 by omega,
    show (8 * a + i) % 8 = i % 8 by omega]

theorem load_congr {m m' : Mem} {a n : Nat} (h : ∀ x, a ≤ x → x < a + n → m x = m' x) :
    load m a n = load m' a n := by
  apply BitVec.eq_of_getLsbD_eq
  intro i hi
  rw [load_getLsbD m a n i hi, load_getLsbD m' a n i hi, h (a + i / 8) (by omega) (by omega)]

theorem load_shift {m m' : Mem} {a b n : Nat} (h : ∀ x, x < n → m (a + x) = m' (b + x)) :
    load m a n = load m' b n := by
  apply BitVec.eq_of_getLsbD_eq
  intro i hi
  rw [load_getLsbD m a n i hi, load_getLsbD m' b n i hi, h (i / 8) (by omega)]

/-! ## Stores -/

theorem store_of_lt {m : Mem} {a n x : Nat} {v : BitVec (8 * n)} (h : x < a ∨ a + n ≤ x) :
    store m a n v x = m x := by
  unfold store
  rw [if_neg (by omega)]

@[simp] theorem load_store_same (m : Mem) (a n : Nat) (v : BitVec (8 * n)) :
    load (store m a n v) a n = v := by
  apply BitVec.eq_of_getLsbD_eq
  intro i hi
  rw [load_getLsbD _ _ _ _ hi]
  unfold store
  rw [if_pos (by omega), BitVec.getLsbD_extractLsb', Nat.add_sub_cancel_left, Nat.div_add_mod]
  simp [Nat.mod_lt]

theorem load_store_disjoint (m : Mem) {a b n k : Nat} {v : BitVec (8 * k)}
    (h : a + n ≤ b ∨ b + k ≤ a) : load (store m b k v) a n = load m a n :=
  load_congr fun x h1 h2 => store_of_lt (by omega)

theorem store_store_same (m : Mem) (a n : Nat) (v w : BitVec (8 * n)) :
    store (store m a n v) a n w = store m a n w := by
  funext x
  unfold store
  split_ifs <;> rfl

/-- Writing back what was read changes nothing. -/
theorem store_load_same (m : Mem) (a n : Nat) : store m a n (load m a n) = m := by
  funext x
  unfold store
  split_ifs with h
  · apply BitVec.eq_of_getLsbD_eq
    intro i hi
    rw [BitVec.getLsbD_extractLsb', load_getLsbD _ _ _ _ (by omega), show a + (8 * (x - a) + i) / 8 = x by omega,
      show (8 * (x - a) + i) % 8 = i by omega]
    simp [hi]
  · rfl

@[simp] theorem load64_store64_same (m : Mem) (a : Nat) (v : BitVec 64) : (m.store64 a v).load64 a = v :=
  load_store_same m a 8 v

theorem load64_store64_disjoint (m : Mem) {a b : Nat} {v : BitVec 64} (h : a + 8 ≤ b ∨ b + 8 ≤ a) :
    (m.store64 b v).load64 a = m.load64 a :=
  load_store_disjoint m h

/-! ## Copies and fills -/

theorem copy_of_lt {dst src : Mem} {d s n x : Nat} (h : x < d ∨ d + n ≤ x) :
    copy dst d src s n x = dst x := by
  unfold copy
  rw [if_neg (by omega)]

theorem copy_add {dst src : Mem} {d s n k : Nat} (h : k < n) :
    copy dst d src s n (d + k) = src (s + k) := by
  unfold copy
  rw [if_pos (by omega), Nat.add_sub_cancel_left]

theorem load_copy_inside {dst src : Mem} {d s n k w : Nat} (h : k + w ≤ n) :
    load (copy dst d src s n) (d + k) w = load src (s + k) w :=
  load_shift fun x hx => by rw [Nat.add_assoc, copy_add (by omega), Nat.add_assoc]

theorem load_copy_disjoint {dst src : Mem} {d s n a w : Nat} (h : a + w ≤ d ∨ d + n ≤ a) :
    load (copy dst d src s n) a w = load dst a w :=
  load_congr fun x h1 h2 => copy_of_lt (by omega)

theorem fill_of_lt {m : Mem} {a n x : Nat} {v : BitVec 8} (h : x < a ∨ a + n ≤ x) :
    fill m a n v x = m x := by
  unfold fill
  rw [if_neg (by omega)]

theorem load_fill_disjoint {m : Mem} {a n b w : Nat} {v : BitVec 8} (h : b + w ≤ a ∨ a + n ≤ b) :
    load (fill m a n v) b w = load m b w :=
  load_congr fun x h1 h2 => fill_of_lt (by omega)

theorem load_fill_zero {m : Mem} {a n b w : Nat} (h1 : a ≤ b) (h2 : b + w ≤ a + n) :
    load (fill m a n 0) b w = 0#(8 * w) := by
  apply BitVec.eq_of_getLsbD_eq
  intro i hi
  rw [load_getLsbD _ _ _ _ hi]
  unfold fill
  rw [if_pos (by omega)]
  simp

end Mem

end Icarus.Base
