/-
Counters of a few bits that are polled until a number of ticks has passed: the masked difference of two readings is the
number of ticks between them as long as no gap between two polls can hide a whole turn of the counter.
-/
import Mathlib.Data.Nat.ModEq
import Mathlib.Order.Monotone.Defs
import Mathlib.Tactic

namespace Icarus.Base

/-- The ticks since the start at each poll of a counter of `w` bits, up to the poll that finds `wait` of them. -/
structure Polled (w wait : Nat) (ticks : Nat → Nat) : Prop where
  mono : Monotone ticks
  first : ticks 0 < 2 ^ w - wait
  gap : ∀ k, ticks (k + 1) - ticks k < 2 ^ w - wait

section
variable {w wait k : Nat} {ticks : Nat → Nat}

/-- The counter has not come around when it is polled behind a poll that found too few ticks. -/
theorem Polled.lt (h : Polled w wait ticks) (hbefore : ∀ j < k, ticks j < wait) : ticks k < 2 ^ w := by
  cases k with
  | zero =>
    have hfirst := h.first
    omega
  | succ k =>
    have hgap := h.gap k
    have hlt := hbefore k (Nat.lt_succ_self k)
    omega

/-- Up to the first poll that reads enough ticks, what is read is what has passed. -/
theorem Polled.exact (h : Polled w wait ticks) (hbefore : ∀ j < k, ticks j % 2 ^ w < wait) :
    ticks k % 2 ^ w = ticks k := by
  induction k using Nat.strong_induction_on with
  | _ k ih =>
    refine Nat.mod_eq_of_lt (h.lt fun j hj => ?_)
    have hread := ih j hj fun i hi => hbefore i (hi.trans hj)
    have hfew := hbefore j hj
    rwa [hread] at hfew

/-- The masked difference of two readings. -/
theorem toNat_sub_and_mask {n c t : Nat} {a b : BitVec n} (hw : w ≤ n) (ha : a.toNat % 2 ^ w = (c + t) % 2 ^ w)
    (hb : b.toNat % 2 ^ w = c % 2 ^ w) : ((a - b) &&& BitVec.ofNat n (2 ^ w - 1)).toNat = t % 2 ^ w := by
  have hpow : 2 ^ w ≤ 2 ^ n := Nat.pow_le_pow_right (by decide) hw
  have hpos : 0 < 2 ^ w := Nat.two_pow_pos w
  rw [BitVec.toNat_and, BitVec.toNat_ofNat, Nat.mod_eq_of_lt (by omega), Nat.and_two_pow_sub_one_eq_mod, BitVec.toNat_sub,
    Nat.mod_mod_of_dvd _ (pow_dvd_pow 2 hw)]
  -- adding what was subtracted gives the later reading
  have hsum : 2 ^ n - b.toNat + a.toNat + b.toNat ≡ t + b.toNat [MOD 2 ^ w] := by
    have hlt := b.isLt
    rw [show 2 ^ n - b.toNat + a.toNat + b.toNat = 2 ^ n + a.toNat by omega, Nat.add_comm t]
    calc 2 ^ n + a.toNat ≡ 0 + a.toNat [MOD 2 ^ w] := ((Nat.modEq_zero_iff_dvd).2 (pow_dvd_pow 2 hw)).add_right _
      _ ≡ c + t [MOD 2 ^ w] := by rw [Nat.zero_add]; exact ha
      _ ≡ b.toNat + t [MOD 2 ^ w] := Nat.ModEq.add_right _ hb.symm
  exact hsum.add_right_cancel' _

end

end Icarus.Base
