/-
Unsigned machine words as natural numbers: the wrap-around operations of the 8, 16, 32 and 64 bit
types, and alignment to a power of two as the bit mask computes it.
-/
import Mathlib.Data.Nat.Bitwise
import Mathlib.Tactic.Ring

namespace Icarus.Base

/-! ## Wrap-around -/

/-- A value stored in a 16 bit variable. -/
def u16 (x : Nat) : Nat := x % 2 ^ 16

/-- A value stored in a 32 bit variable. -/
def u32 (x : Nat) : Nat := x % 2 ^ 32

/-- A value stored in a 64 bit variable. -/
def u64 (x : Nat) : Nat := x % 2 ^ 64

/-- 64 bit addition. -/
def add64 (a b : Nat) : Nat := u64 (a + b)

/-- 64 bit subtraction. -/
def sub64 (a b : Nat) : Nat := u64 (a + (2 ^ 64 - u64 b))

/-- 64 bit multiplication. -/
def mul64 (a b : Nat) : Nat := u64 (a * b)

theorem u16_of_lt {x : Nat} (h : x < 2 ^ 16) : u16 x = x := Nat.mod_eq_of_lt h

theorem u32_of_lt {x : Nat} (h : x < 2 ^ 32) : u32 x = x := Nat.mod_eq_of_lt h

theorem u64_of_lt {x : Nat} (h : x < 2 ^ 64) : u64 x = x := Nat.mod_eq_of_lt h

theorem u64_lt (x : Nat) : u64 x < 2 ^ 64 := Nat.mod_lt _ (by decide)

theorem add64_of_lt {a b : Nat} (h : a + b < 2 ^ 64) : add64 a b = a + b := u64_of_lt h

theorem mul64_of_lt {a b : Nat} (h : a * b < 2 ^ 64) : mul64 a b = a * b := u64_of_lt h

theorem sub64_of_le {a b : Nat} (h : b ≤ a) (ha : a < 2 ^ 64) : sub64 a b = a - b := by
  unfold sub64 u64
  omega

/-! ## Alignment -/

/-- `x & ~(a - 1)` on 64 bits. -/
def alignDown (x a : Nat) : Nat := x &&& (2 ^ 64 - 1 - (a - 1))

/-- `(x + a - 1) & ~(a - 1)` on 64 bits. -/
def alignUp (x a : Nat) : Nat := alignDown (add64 x (a - 1)) a

/-- Masking the low bits away rounds down to the multiple of the power of two. -/
theorem alignDown_two_pow {x k : Nat} (hx : x < 2 ^ 64) (hk : k ≤ 64) :
    alignDown x (2 ^ k) = x / 2 ^ k * 2 ^ k := by
  unfold alignDown
  have hmask : 2 ^ 64 - 1 - (2 ^ k - 1) = (2 ^ (64 - k) - 1) * 2 ^ k := by
    have hpow : 2 ^ (64 - k) * 2 ^ k = 2 ^ 64 := by rw [← pow_add]; congr 1; omega
    have hpos : 1 ≤ 2 ^ k := Nat.one_le_two_pow
    rw [Nat.sub_mul, hpow]; omega
  rw [hmask]
  apply Nat.eq_of_testBit_eq
  intro i
  rw [Nat.testBit_and, Nat.testBit_mul_two_pow, Nat.testBit_mul_two_pow, Nat.testBit_two_pow_sub_one,
    Nat.testBit_div_two_pow]
  by_cases hki : k ≤ i
  · rw [show i - k + k = i by omega]
    by_cases hi : i < 64
    · simp [hki, show i - k < 64 - k by omega]
    · have hzero : x.testBit i = false :=
        Nat.testBit_lt_two_pow (lt_of_lt_of_le hx (Nat.pow_le_pow_right (by decide) (by omega)))
      simp [hzero]
  · simp [hki]

theorem alignUp_two_pow {x k : Nat} (hk : k ≤ 64) (hx : x + (2 ^ k - 1) < 2 ^ 64) :
    alignUp x (2 ^ k) = (x + (2 ^ k - 1)) / 2 ^ k * 2 ^ k := by
  unfold alignUp
  rw [add64_of_lt hx, alignDown_two_pow hx hk]

end Icarus.Base
