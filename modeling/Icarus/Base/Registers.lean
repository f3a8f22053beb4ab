/-
Registers of a device some bits of which a write does not change, and how the size of a window is read from the bits
that it does.
-/
import Mathlib.Tactic

namespace Icarus.Base

/-- A register: what it reads as, and the bits a write can change. -/
@[ext] structure Register (w : Nat) where
  value : BitVec w
  writable : BitVec w
  deriving DecidableEq

namespace Register

/-- The other bits keep their value. -/
def write {w : Nat} (r : Register w) (x : BitVec w) : Register w :=
  { r with value := (x &&& r.writable) ||| (r.value &&& ~~~r.writable) }

section
variable {w : Nat} (r : Register w) (x y : BitVec w)

/-- The last write counts. -/
@[simp] theorem write_write : (r.write x).write y = r.write y := by
  apply Register.ext
  · apply BitVec.eq_of_getLsbD_eq
    intro i hi
    simp only [write, BitVec.getLsbD_or, BitVec.getLsbD_and, BitVec.getLsbD_not, hi, decide_true, Bool.true_and]
    cases r.writable.getLsbD i <;> simp
  · rfl

/-- Writing back what was read changes nothing. -/
@[simp] theorem write_value : r.write r.value = r := by
  apply Register.ext
  · apply BitVec.eq_of_getLsbD_eq
    intro i hi
    simp only [write, BitVec.getLsbD_or, BitVec.getLsbD_and, BitVec.getLsbD_not, hi, decide_true, Bool.true_and]
    cases r.writable.getLsbD i <;> simp
  · rfl

/-- A bit that can be written. -/
theorem getLsbD_write {i : Nat} (h : r.writable.getLsbD i = true) : (r.write x).value.getLsbD i = x.getLsbD i := by
  simp only [write, BitVec.getLsbD_or, BitVec.getLsbD_and, BitVec.getLsbD_not, h]
  simp

/-- After ones were written, the bits that can be changed read as ones. -/
theorem write_allOnes : (r.write (BitVec.allOnes w)).value = r.writable ||| (r.value &&& ~~~r.writable) := by
  unfold write
  rw [BitVec.allOnes_and]

end

end Register

/-! ## Windows -/

/-- The bits from `order` on. -/
def upperBits (w order : Nat) : BitVec w := -BitVec.twoPow w order

section
variable {w order : Nat} (h : order < w)
include h

theorem toNat_not_upperBits : (~~~upperBits w order).toNat = 2 ^ order - 1 := by
  have hpow : 2 ^ order < 2 ^ w := Nat.pow_lt_pow_right (by decide) h
  have hpos : 0 < 2 ^ order := Nat.two_pow_pos order
  unfold upperBits
  rw [BitVec.toNat_not, BitVec.toNat_neg, BitVec.toNat_twoPow, Nat.mod_eq_of_lt hpow, Nat.mod_eq_of_lt (by omega)]
  omega

/-- The other bits are what is left of a multiple of the size. -/
theorem and_not_upperBits (x : BitVec w) : x &&& ~~~upperBits w order = BitVec.ofNat w (x.toNat % 2 ^ order) := by
  apply BitVec.eq_of_toNat_eq
  have hlt : x.toNat % 2 ^ order < 2 ^ w := lt_of_le_of_lt (Nat.mod_le ..) x.isLt
  rw [BitVec.toNat_and, toNat_not_upperBits h, Nat.and_two_pow_sub_one_eq_mod, BitVec.toNat_ofNat, Nat.mod_eq_of_lt hlt]

end

/-- The size of a window, from the bits of its address. -/
theorem not_upperBits_add_one (w order : Nat) : ~~~upperBits w order + 1 = BitVec.twoPow w order := by
  unfold upperBits
  exact (BitVec.neg_eq_not_add _).symm.trans BitVec.neg_neg

end Icarus.Base
