/-
Single bits of a 64 bit word, and the fields of bits they belong to.
-/
import Mathlib.Tactic

namespace Icarus.Base

/-- The word with bit `i` set to `b`. -/
def setBit (e : BitVec 64) (i : Nat) (b : Bool) : BitVec 64 :=
  if b then e ||| BitVec.twoPow 64 i else e &&& ~~~BitVec.twoPow 64 i

theorem getLsbD_setBit (e : BitVec 64) (i : Nat) (b : Bool) {j : Nat} (hj : j < 64) :
    (setBit e i b).getLsbD j = if j = i then b else e.getLsbD j := by
  unfold setBit
  cases b with
  | true =>
    rw [if_pos rfl, BitVec.getLsbD_or, BitVec.getLsbD_twoPow]
    by_cases h : j = i
    · subst h
      simp [hj]
    · simp [h, Ne.symm h]
  | false =>
    rw [if_neg (by decide), BitVec.getLsbD_and, BitVec.getLsbD_not, BitVec.getLsbD_twoPow]
    by_cases h : j = i
    · subst h
      simp [hj]
    · simp [h, Ne.symm h, hj]

theorem getLsbD_setBit_of_ne (e : BitVec 64) {i j : Nat} (b : Bool) (h : j ≠ i) :
    (setBit e i b).getLsbD j = e.getLsbD j := by
  by_cases hj : j < 64
  · rw [getLsbD_setBit e i b hj, if_neg h]
  · rw [BitVec.getLsbD_of_ge _ _ (by omega), BitVec.getLsbD_of_ge _ _ (by omega)]

/-- A field that a changed bit does not belong to. -/
theorem extractLsb'_setBit (e : BitVec 64) {i lo n : Nat} (b : Bool) (h : i < lo ∨ lo + n ≤ i) :
    (setBit e i b).extractLsb' lo n = e.extractLsb' lo n := by
  apply BitVec.eq_of_getLsbD_eq
  intro j hj
  rw [BitVec.getLsbD_extractLsb', BitVec.getLsbD_extractLsb', getLsbD_setBit_of_ne e b (by omega)]

/-- A field is the concatenation of its two parts. -/
theorem toNat_extractLsb'_add (e : BitVec 64) (lo n k : Nat) :
    (e.extractLsb' lo (n + k)).toNat = (e.extractLsb' lo n).toNat + 2 ^ n * (e.extractLsb' (lo + n) k).toNat := by
  rw [BitVec.extractLsb'_toNat, BitVec.extractLsb'_toNat, BitVec.extractLsb'_toNat, Nat.shiftRight_add,
    Nat.shiftRight_eq_div_pow _ n, pow_add, Nat.mod_mul]

end Icarus.Base
