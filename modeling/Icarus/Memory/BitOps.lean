/-
The operations on one bit of `BitMap.c` against those on a range of one bit, over any sequence of both kinds: all of them
are one array of bits, except where an index just behind the bitmap is taken for one inside, where `bitmap_set_value`
is to clear a bit, and where the index of a range wraps around.
-/
import Icarus.Memory.BitRanges

namespace Icarus.Memory

open Icarus.Base

/-! ## The code -/

/-- The common body of `bitmap_set_value`, `bitmap_set` and `bitmap_clear`. -/
def bitmapWriteOne (writeBit : BitVec 8 → Nat → BitVec 8) (map : BitMap) (index : Nat) : Int × BitMap :=
  if index / 8 > map.size / 8 then (-1, map)
  else (0, { map with data := Function.update map.data (index / 8) (writeBit (map.data (index / 8)) (index % 8)) })

/-- `bitmap_set_value`. -/
def bitmapSetValue (map : BitMap) (index : Nat) (value : BitVec 8) : Int × BitMap :=
  bitmapWriteOne (fun b k => b ||| ((value &&& 0x1#8) <<< k)) map index

/-- `bitmap_set`. -/
def bitmapSet : BitMap → Nat → Int × BitMap := bitmapWriteOne fun b k => b ||| (1#8 <<< k)

/-- `bitmap_clear`. -/
def bitmapClear : BitMap → Nat → Int × BitMap := bitmapWriteOne fun b k => b &&& ~~~(1#8 <<< k)

/-- `bitmap_get`; -1 is returned as a byte. -/
def bitmapGet (map : BitMap) (index : Nat) : BitVec 8 :=
  if index / 8 > map.size / 8 then 0xFF#8
  else (map.data (index / 8) &&& (1#8 <<< (index % 8))) >>> (index % 8)

/-- A call that writes. -/
inductive BitOp
  | setValue (index : Nat) (value : BitVec 8)
  | set (index : Nat)
  | clear (index : Nat)
  | setLen (startIndex len : Nat)
  | clearLen (startIndex len : Nat)

/-- The call returns, with this value and this bitmap. -/
def BitOp.Returns (map : BitMap) (r : Int × BitMap) : BitOp → Prop
  | .setValue index value => bitmapSetValue map index value = r
  | .set index => bitmapSet map index = r
  | .clear index => bitmapClear map index = r
  | .setLen startIndex len => Run.Returns (bitmapSetLenRun map startIndex len) r
  | .clearLen startIndex len => Run.Returns (bitmapClearLenRun map startIndex len) r

/-! ## The array of bits -/

/-- The value that is written. -/
def BitOp.value : BitOp → Bool
  | .setValue _ value => value.getLsbD 0
  | .set _ => true
  | .clear _ => false
  | .setLen .. => true
  | .clearLen .. => false

/-- The first bit that is written. -/
def BitOp.start : BitOp → Nat
  | .setValue index _ => index
  | .set index => index
  | .clear index => index
  | .setLen startIndex _ => startIndex
  | .clearLen startIndex _ => startIndex

/-- The number of bits that are written. -/
def BitOp.len : BitOp → Nat
  | .setLen _ len => len
  | .clearLen _ len => len
  | _ => 1

/-- The call on a range that does the same. -/
def BitOp.asRange (op : BitOp) : BitOp := if op.value then .setLen op.start op.len else .clearLen op.start op.len

/-- The call and the one on a range return the same value and the same data. -/
def BitOp.Agrees (map : BitMap) (op : BitOp) : Prop := ∀ r, op.Returns map r ↔ op.asRange.Returns map r

/-- An array of `size` bits behind the call: a range inside it has the value, and all else what was written last. -/
def BitOp.apply (size : Nat) (bits : Nat → Bool) (op : BitOp) : Nat → Bool := fun j =>
  if op.start + op.len ≤ size ∧ op.start ≤ j ∧ j < op.start + op.len then op.value else bits j

/-- Every call agrees with the one on a range and returns, and behind it every bit reads as what was written to it
last. -/
def ArrayKept : BitMap → (Nat → Bool) → List BitOp → Prop
  | _, _, [] => True
  | map, bits, op :: ops => op.Agrees map ∧ ∃ r map', op.Returns map (r, map') ∧
      (∀ j < map.size, bitmapGet map' j = if op.apply map.size bits j then 1#8 else 0#8) ∧
        ArrayKept map' (op.apply map.size bits) ops

/-! ## The condition -/

/-- The range does not end eight bits below `2^64`, which only a bitmap of that size has room for. -/
def BitOp.EndsBelow (size : Nat) (op : BitOp) : Prop := op.start + op.len ≤ size → op.start + op.len + 8 ≠ 2 ^ 64

/-- The index is not one of the eight behind the bitmap, and no 0 is written over a bit that is set by
`bitmap_set_value`. -/
def BitOp.Meets (size : Nat) (bits : Nat → Bool) : BitOp → Prop
  | .setValue index value => (index < size → value.getLsbD 0 = false → bits index = false) ∧
      ¬(size ≤ index ∧ index < size + 8)
  | .set index => ¬(size ≤ index ∧ index < size + 8)
  | .clear index => ¬(size ≤ index ∧ index < size + 8)
  | _ => True

/-- Every call of the sequence keeps to it. -/
def AllMeet (size : Nat) : (Nat → Bool) → List BitOp → Prop
  | _, [] => True
  | bits, op :: ops => op.EndsBelow size ∧ op.Meets size bits ∧ AllMeet size (op.apply size bits) ops

/-! ## Ranges -/

section
variable {map : BitMap} {bits : Nat → Bool} {op : BitOp} {r : Int × BitMap} {index : Nat}

/-- The run of the range call. -/
def rangeRun (v : Bool) (map : BitMap) (start len : Nat) : Nat → Run Nat (Int × BitMap) :=
  if v then bitmapSetLenRun map start len else bitmapClearLenRun map start len

/-- It is that of one writer of bits. -/
theorem rangeRun_eq (v : Bool) (map : BitMap) (start len : Nat) : ∃ writeBit wholeByte, Writes v writeBit wholeByte ∧
    rangeRun v map start len = (bitmapWriteLenRun writeBit wholeByte map start len ·) := by
  cases v with
  | true => exact ⟨_, _, set_writes, rfl⟩
  | false => exact ⟨_, _, clear_writes, rfl⟩

theorem rangeRun_steady {v : Bool} {start len : Nat} : Run.Steady (rangeRun v map start len) := by
  obtain ⟨writeBit, wholeByte, -, heq⟩ := rangeRun_eq v map start len
  rw [heq]
  exact bitmapWriteLenRun_steady

theorem asRange_returns : op.asRange.Returns map r ↔ Run.Returns (rangeRun op.value map op.start op.len) r := by
  unfold BitOp.asRange rangeRun
  split_ifs <;> exact Iff.rfl

theorem rangeRun_refused {v : Bool} {start len : Nat} (hsize : map.size < 2 ^ 64) (hout : map.size < start + len) :
    Run.Returns (rangeRun v map start len) (-1, map) := by
  obtain ⟨writeBit, wholeByte, -, heq⟩ := rangeRun_eq v map start len
  rw [heq, bitmapWriteLenRun_refused hsize hout]
  exact ⟨0, rfl⟩

theorem rangeRun_written {v : Bool} {start len : Nat} (hsize : map.size < 2 ^ 64) (hin : start + len ≤ map.size)
    (hroom : start + len + 8 < 2 ^ 64) : ∃ data, Run.Returns (rangeRun v map start len) (0, { map with data := data }) ∧
      WrittenTo v map.data start (start + len) data := by
  obtain ⟨writeBit, wholeByte, hw, heq⟩ := rangeRun_eq v map start len
  obtain ⟨data, hends, hwritten⟩ := bitmapWriteLenRun_written hw hsize hin hroom
  rw [heq]
  exact ⟨data, hends.returns, hwritten⟩

theorem rangeRun_hangs {v : Bool} {start len : Nat} (hsize : map.size < 2 ^ 64) (hin : start + len ≤ map.size)
    (hend : start + len + 8 = 2 ^ 64) : ¬Run.Returns (rangeRun v map start len) r := by
  obtain ⟨writeBit, wholeByte, -, heq⟩ := rangeRun_eq v map start len
  rw [heq]
  exact bitmapWriteLenRun_hangs hsize hin hend r

/-- A range call that returns leaves the array of bits. -/
theorem rangeRun_apply (h8 : map.size % 8 = 0) (hsize : map.size < 2 ^ 64) (hend : op.EndsBelow map.size) :
    ∃ c data, Run.Returns (rangeRun op.value map op.start op.len) (c, { map with data := data }) ∧
      ∀ j, data.bit j = op.apply map.size map.bit j := by
  unfold BitOp.apply
  by_cases hin : op.start + op.len ≤ map.size
  · have hne := hend hin
    obtain ⟨data, hret, hwritten⟩ := @rangeRun_written map op.value op.start op.len hsize hin (by omega)
    refine ⟨0, data, hret, fun j => ?_⟩
    rw [hwritten j]
    simp only [hin, true_and]
    rfl
  · refine ⟨-1, map.data, rangeRun_refused hsize (by omega), fun j => ?_⟩
    rw [if_neg fun h => hin h.1]
    rfl

/-! ## Single bits -/

theorem bitmapGet_of_lt {j : Nat} (hj : j < map.size) : bitmapGet map j = if map.bit j then 1#8 else 0#8 := by
  have hback : ∀ k < 8, (1#8 <<< k) >>> k = 1#8 := by decide
  unfold bitmapGet BitMap.bit Mem.bit
  rw [if_neg (by omega), ← BitVec.twoPow_eq, BitVec.and_twoPow, BitVec.twoPow_eq]
  split_ifs
  · exact hback _ (Nat.mod_lt _ (by decide))
  · exact BitVec.zero_ushiftRight

/-- One bit of the bitmap is written. -/
theorem bitmapWriteOne_written {v : Bool} {writeBit : BitVec 8 → Nat → BitVec 8} {wholeByte : BitVec 8}
    (hw : Writes v writeBit wholeByte) (hi : index < map.size) :
    ∃ data, bitmapWriteOne writeBit map index = (0, { map with data := data }) ∧
      WrittenTo v map.data index (index + 1) data := by
  have hnone : WrittenTo v map.data index index map.data := fun j => by rw [if_neg (by omega)]
  unfold bitmapWriteOne
  rw [if_neg (by omega)]
  exact ⟨_, rfl, hnone.one hw le_rfl⟩

theorem bitmapWriteOne_fst (writeBit : BitVec 8 → Nat → BitVec 8) (h8 : map.size % 8 = 0) (hi : index < map.size + 8) :
    (bitmapWriteOne writeBit map index).1 = 0 := by
  unfold bitmapWriteOne
  rw [if_neg (by omega)]

theorem bitmapWriteOne_refused {writeBit : BitVec 8 → Nat → BitVec 8} (hi : map.size + 8 ≤ index) :
    bitmapWriteOne writeBit map index = (-1, map) := by
  unfold bitmapWriteOne
  rw [if_pos (by omega)]

/-- Where the range call returns, there is one value to agree on. -/
theorem agrees_iff_eq {x : Nat → Run Nat (Int × BitMap)} {r₀ y : Int × BitMap} (hx : Run.Steady x)
    (h : Run.Returns x r₀) : (∀ r, y = r ↔ Run.Returns x r) ↔ y = r₀ := by
  constructor
  · exact fun hagree => (hagree r₀).2 h
  · rintro rfl r
    exact ⟨fun heq => heq ▸ h, fun hr => h.unique hx hr⟩

/-- Outside the bitmap the range call refuses, and the call on one bit does so from the second byte behind on. -/
theorem bitmapWriteOne_agrees_outside {v : Bool} {writeBit : BitVec 8 → Nat → BitVec 8} (h8 : map.size % 8 = 0)
    (hsize : map.size < 2 ^ 64) (hout : map.size ≤ index) :
    (∀ r, bitmapWriteOne writeBit map index = r ↔ Run.Returns (rangeRun v map index 1) r) ↔
      ¬(map.size ≤ index ∧ index < map.size + 8) := by
  rw [agrees_iff_eq rangeRun_steady (rangeRun_refused hsize (by omega))]
  by_cases hbehind : index < map.size + 8
  · refine iff_of_false (fun heq => ?_) (fun h => h ⟨hout, hbehind⟩)
    have hcode := bitmapWriteOne_fst writeBit h8 hbehind
    rw [heq] at hcode
    exact absurd (show (-1 : Int) = 0 from hcode) (by decide)
  · exact iff_of_true (bitmapWriteOne_refused (by omega)) fun h => hbehind h.2

/-- A call that writes the value agrees with the range call exactly if its index is not just behind the bitmap. -/
theorem bitmapWriteOne_agrees {v : Bool} {writeBit : BitVec 8 → Nat → BitVec 8} {wholeByte : BitVec 8}
    (hw : Writes v writeBit wholeByte) (h8 : map.size % 8 = 0) (hsize : map.size < 2 ^ 64)
    (hend : index + 1 ≤ map.size → index + 1 + 8 ≠ 2 ^ 64) :
    (∀ r, bitmapWriteOne writeBit map index = r ↔ Run.Returns (rangeRun v map index 1) r) ↔
      ¬(map.size ≤ index ∧ index < map.size + 8) := by
  by_cases hin : index < map.size
  · have hne := hend hin
    obtain ⟨data, hret, hwritten⟩ := @rangeRun_written map v index 1 hsize hin (by omega)
    obtain ⟨data', hone, hwritten'⟩ := bitmapWriteOne_written hw hin
    rw [agrees_iff_eq rangeRun_steady hret, hone, hwritten'.unique hwritten]
    exact iff_of_true rfl fun h => absurd hin (not_lt.2 h.1)
  · exact bitmapWriteOne_agrees_outside h8 hsize (by omega)

/-- A 1 is set as `bitmap_set` does. -/
theorem bitmapSetValue_of_odd {value : BitVec 8} (h : value.getLsbD 0 = true) :
    bitmapSetValue map index value = bitmapSet map index := by
  have hone : value &&& 0x1#8 = 1#8 := by
    rw [BitVec.and_one_eq_setWidth_ofBool_getLsbD, h]
    rfl
  unfold bitmapSetValue bitmapSet
  rw [hone]

/-- A 0 is not written at all. -/
theorem bitmapSetValue_of_even {value : BitVec 8} (h : value.getLsbD 0 = false) (hi : index < map.size) :
    bitmapSetValue map index value = (0, map) := by
  have hzero : value &&& 0x1#8 = 0#8 := by
    rw [BitVec.and_one_eq_setWidth_ofBool_getLsbD, h]
    rfl
  unfold bitmapSetValue bitmapWriteOne
  rw [if_neg (by omega), hzero]
  dsimp only
  rw [BitVec.zero_shiftLeft, BitVec.or_zero, Function.update_eq_self]

theorem bitmapSetValue_agrees {value : BitVec 8} (h8 : map.size % 8 = 0) (hsize : map.size < 2 ^ 64)
    (hend : index + 1 ≤ map.size → index + 1 + 8 ≠ 2 ^ 64) :
    (∀ r, bitmapSetValue map index value = r ↔ Run.Returns (rangeRun (value.getLsbD 0) map index 1) r) ↔
      (index < map.size → value.getLsbD 0 = false → map.bit index = false) ∧
        ¬(map.size ≤ index ∧ index < map.size + 8) := by
  cases hv : value.getLsbD 0 with
  | true =>
    rw [bitmapSetValue_of_odd hv]
    exact (bitmapWriteOne_agrees set_writes h8 hsize hend).trans
      (and_iff_right fun _ h => absurd h.symm Bool.false_ne_true).symm
  | false =>
    by_cases hin : index < map.size
    · have hne := hend hin
      obtain ⟨data, hret, hwritten⟩ := @rangeRun_written map false index 1 hsize hin (by omega)
      rw [agrees_iff_eq rangeRun_steady hret, bitmapSetValue_of_even hv hin]
      constructor
      · intro heq
        have hdata : map.data = data := congrArg (fun r : Int × BitMap => r.2.data) heq
        have hbit := hwritten index
        rw [if_pos (by omega), ← hdata] at hbit
        exact ⟨fun _ _ => hbit, fun h => absurd hin (not_lt.2 h.1)⟩
      · rintro ⟨hclear, -⟩
        -- the bit is clear already, so nothing is there to write
        have hsame : WrittenTo false map.data index (index + 1) map.data := by
          intro j
          split_ifs with hj
          · obtain rfl : j = index := by omega
            exact hclear hin rfl
          · rfl
        rw [hwritten.unique hsame]
    · rw [and_iff_right fun h => absurd h hin]
      exact bitmapWriteOne_agrees_outside h8 hsize (by omega)

/-! ## One call -/

/-- Up to the range that never ends, a call agrees with the one on a range exactly under the condition. -/
theorem agrees_iff_meets (h8 : map.size % 8 = 0) (hsize : map.size < 2 ^ 64)
    (hbits : ∀ j < map.size, bits j = map.bit j) (hend : op.EndsBelow map.size) :
    op.Agrees map ↔ op.Meets map.size bits := by
  cases op with
  | setValue index value =>
    have hbit : (index < map.size → value.getLsbD 0 = false → bits index = false) ↔
        (index < map.size → value.getLsbD 0 = false → map.bit index = false) :=
      forall_congr' fun hi => by rw [hbits index hi]
    exact (forall_congr' fun r => iff_congr Iff.rfl asRange_returns).trans
      ((bitmapSetValue_agrees h8 hsize hend).trans (and_congr_left' hbit.symm))
  | set index => exact bitmapWriteOne_agrees set_writes h8 hsize hend
  | clear index => exact bitmapWriteOne_agrees clear_writes h8 hsize hend
  | setLen startIndex len => exact iff_of_true (fun r => Iff.rfl) trivial
  | clearLen startIndex len => exact iff_of_true (fun r => Iff.rfl) trivial

/-- A call that agrees with the one on a range, and returns, ends below the range that never ends. -/
theorem endsBelow_of_returns (hsize : map.size < 2 ^ 64) (hagree : op.Agrees map) (hret : op.Returns map r) :
    op.EndsBelow map.size := fun hin hend =>
  rangeRun_hangs hsize hin hend (asRange_returns.1 ((hagree r).1 hret))

end

/-! ## Sequences -/

theorem arrayKept_iff {map : BitMap} {bits : Nat → Bool} (h8 : map.size % 8 = 0) (hsize : map.size < 2 ^ 64)
    (hbits : ∀ j < map.size, bits j = map.bit j) (ops : List BitOp) :
    ArrayKept map bits ops ↔ AllMeet map.size bits ops := by
  induction ops generalizing map bits with
  | nil => exact Iff.rfl
  | cons op ops ih =>
    -- what the range call leaves, the call that agrees with it leaves
    have hstep : op.EndsBelow map.size → ∃ c data,
        Run.Returns (rangeRun op.value map op.start op.len) (c, { map with data := data }) ∧
          (∀ j < map.size, op.apply map.size bits j = data.bit j) := by
      intro hend
      obtain ⟨c, data, hret, hdata⟩ := rangeRun_apply h8 hsize hend
      refine ⟨c, data, hret, fun j hj => ?_⟩
      rw [hdata j]
      unfold BitOp.apply
      rw [hbits j hj]
    unfold ArrayKept AllMeet
    constructor
    · rintro ⟨hagree, r, map', hret, -, hrest⟩
      have hend := endsBelow_of_returns hsize hagree hret
      obtain ⟨c, data, hrange, hdata⟩ := hstep hend
      obtain ⟨rfl, rfl⟩ := Prod.mk.inj ((asRange_returns.1 ((hagree _).1 hret)).unique rangeRun_steady hrange)
      exact ⟨hend, (agrees_iff_meets h8 hsize hbits hend).1 hagree,
        (@ih { map with data := data } _ h8 hsize hdata).1 hrest⟩
    · rintro ⟨hend, hmeets, hrest⟩
      have hagree := (agrees_iff_meets h8 hsize hbits hend).2 hmeets
      obtain ⟨c, data, hrange, hdata⟩ := hstep hend
      refine ⟨hagree, c, _, (hagree _).2 (asRange_returns.2 hrange), fun j hj => ?_,
        (@ih { map with data := data } _ h8 hsize hdata).2 hrest⟩
      rw [bitmapGet_of_lt (show j < BitMap.size { map with data := data } from hj), hdata j hj]
      rfl

/-- Through a sequence of calls on a bitmap of whole bytes, each call does what the one on a range does and every bit
reads as what was written to it last, exactly when no call on one bit names one of the eight bits behind the bitmap, no
`bitmap_set_value` is to clear a bit that is set, and no range inside the bitmap ends eight bits below `2^64`. -/
theorem bit_ops_agree_iff (map : BitMap) (h8 : map.size % 8 = 0) (hsize : map.size < 2 ^ 64) (ops : List BitOp) :
    ArrayKept map map.bit ops ↔ AllMeet map.size map.bit ops := arrayKept_iff h8 hsize (fun _ _ => rfl) ops

/-- Sixteen bits. -/
theorem bit_ops_agree_iff_sixteen :
    ArrayKept ⟨16, fun _ => 0⟩ (BitMap.bit ⟨16, fun _ => 0⟩) [.set 15, .setValue 3 0, .setLen 2 9, .clear 24, .clearLen 4 3] ↔
      AllMeet 16 (BitMap.bit ⟨16, fun _ => 0⟩) [.set 15, .setValue 3 0, .setLen 2 9, .clear 24, .clearLen 4 3] :=
  bit_ops_agree_iff ⟨16, fun _ => 0⟩ rfl (by decide) _

/-- The bit behind a bitmap of eight is set, and a 1 stays where a 0 was written. -/
theorem bit_ops_part :
    ¬ArrayKept ⟨8, fun _ => 0⟩ (BitMap.bit ⟨8, fun _ => 0⟩) [.set 8] ∧
      ¬ArrayKept ⟨8, fun _ => 0⟩ (BitMap.bit ⟨8, fun _ => 0⟩) [.set 0, .setValue 0 0] := by
  constructor
  · rintro ⟨hagree, -⟩
    have hret : (bitmapSet ⟨8, fun _ => 0⟩ 8) = (-1, ⟨8, fun _ => 0⟩) := (hagree _).2 ⟨0, rfl⟩
    exact absurd (congrArg Prod.fst hret) (by decide)
  · rintro ⟨-, r, map', hset, -, -, r', map'', hvalue, hget, -⟩
    cases hset
    cases hvalue
    exact absurd (hget 0 (by decide)) (by decide)

end Icarus.Memory
