/-
The bitmap of `BitMap.c`: the range updates `bitmap_set_len` and `bitmap_clear_len` with their
three byte-wise loops, and what they do to every bit.
-/
import Icarus.Base.Word
import Icarus.Base.Bytes
import Icarus.Base.Loop

namespace Icarus.Memory

open Icarus.Base

/-- `bit_map`: the number of bits, and the bytes from `data` on (the array is the tail of the
struct, so it is a memory and not a sized array). -/
structure BitMap where
  size : Nat
  data : Mem

/-- Bit `j` of the bitmap. -/
def BitMap.bit (map : BitMap) (j : Nat) : Bool := map.data.bit j

/-! ## Range updates -/

/-- The loops of `bitmap_set_len` and `bitmap_clear_len`, which differ in how a bit is written
into its byte and in the value of a whole byte. -/
def bitmapWriteLen (writeBit : BitVec 8 → Nat → BitVec 8) (wholeByte : BitVec 8) (map : BitMap)
    (startIndex len : Nat) : Int × BitMap :=
  if startIndex > map.size ∨ len > sub64 map.size startIndex then (-1, map)
  else
    let stop := add64 startIndex len
    let writeOne : Mem × Nat → Mem × Nat := fun (data, i) =>
      (Function.update data (i / 8) (writeBit (data (i / 8)) (i % 8)), i + 1)
    -- up to the next byte boundary
    let s := whileLoop (fun (_, i) => i < stop ∧ i % 8 ≠ 0) writeOne len (map.data, startIndex)
    -- complete bytes
    let s := whileLoop (fun (_, i) => add64 i 8 ≤ stop)
      (fun (data, i) => (Function.update data (i / 8) wholeByte, i + 8)) len s
    -- remaining bits
    let s := whileLoop (fun (_, i) => i < stop) writeOne len s
    (0, { map with data := s.1 })

/-- `bitmap_set_len`. -/
def bitmapSetLen : BitMap → Nat → Nat → Int × BitMap :=
  bitmapWriteLen (fun b k => b ||| (1#8 <<< k)) 0xFF#8

/-- `bitmap_clear_len`. -/
def bitmapClearLen : BitMap → Nat → Nat → Int × BitMap :=
  bitmapWriteLen (fun b k => b &&& ~~~(1#8 <<< k)) 0x00#8

/-! ## One byte -/

/-- Writing one bit into a byte, and a whole byte, as the bits see it. -/
structure Writes (v : Bool) (writeBit : BitVec 8 → Nat → BitVec 8) (wholeByte : BitVec 8) : Prop where
  bit : ∀ b k i, k < 8 → i < 8 → (writeBit b k).getLsbD i = if i = k then v else b.getLsbD i
  byte : ∀ i, i < 8 → wholeByte.getLsbD i = v

/-- `1 << k` has one bit. -/
theorem getLsbD_one_shiftLeft {k : Nat} (hk : k < 8) (i : Nat) : (1#8 <<< k).getLsbD i = decide (i = k) := by
  rw [← BitVec.twoPow_eq, BitVec.getLsbD_twoPow, decide_eq_true hk, Bool.true_and]
  exact decide_eq_decide.2 eq_comm

theorem set_writes : Writes true (fun b k => b ||| (1#8 <<< k)) 0xFF#8 := by
  constructor
  · intro b k i hk _
    rw [BitVec.getLsbD_or, getLsbD_one_shiftLeft hk]
    by_cases h : i = k <;> simp [h]
  · intro i hi
    interval_cases i <;> rfl

theorem clear_writes : Writes false (fun b k => b &&& ~~~(1#8 <<< k)) 0x00#8 := by
  constructor
  · intro b k i hk hi
    rw [BitVec.getLsbD_and, BitVec.getLsbD_not, getLsbD_one_shiftLeft hk]
    by_cases h : i = k <;> simp [h, hi]
  · intro i hi
    interval_cases i <;> rfl

/-! ## The loops -/

/-- The bits `[start, i)` have been written. -/
def WrittenTo (v : Bool) (old : Mem) (start i : Nat) (data : Mem) : Prop :=
  ∀ j, data.bit j = if start ≤ j ∧ j < i then v else old.bit j

theorem bit_update (m : Mem) (k : Nat) (b : BitVec 8) (j : Nat) :
    Mem.bit (Function.update m k b) j = if j / 8 = k then b.getLsbD (j % 8) else m.bit j := by
  unfold Mem.bit Function.update
  split_ifs with h
  · subst h; rfl
  · rfl

theorem mem_ext_bit {m m' : Mem} (h : ∀ j, m'.bit j = m.bit j) : m' = m := by
  funext x
  apply BitVec.eq_of_getLsbD_eq
  intro i hi
  have hbit := h (8 * x + i)
  unfold Mem.bit at hbit
  rwa [show (8 * x + i) / 8 = x by omega, show (8 * x + i) % 8 = i by omega] at hbit

section
variable {v : Bool} {writeBit : BitVec 8 → Nat → BitVec 8} {wholeByte : BitVec 8} {old data : Mem}
  {start i : Nat}

theorem WrittenTo.one (hw : Writes v writeBit wholeByte) (h : WrittenTo v old start i data)
    (hi : start ≤ i) :
    WrittenTo v old start (i + 1) (Function.update data (i / 8) (writeBit (data (i / 8)) (i % 8))) := by
  intro j
  rw [bit_update]
  split_ifs with hb hr hr
  · rw [hw.bit _ _ _ (by omega) (by omega)]
    split_ifs with hji
    · rfl
    · have := h j
      rw [if_pos (by omega)] at this
      rw [← this, Mem.bit, hb]
  · rw [hw.bit _ _ _ (by omega) (by omega), if_neg (by omega)]
    have := h j
    rw [if_neg (by omega)] at this
    rw [← this, Mem.bit, hb]
  · rw [h j, if_pos (by omega)]
  · rw [h j, if_neg (by omega)]

theorem WrittenTo.byte (hw : Writes v writeBit wholeByte) (h : WrittenTo v old start i data)
    (hi : start ≤ i) (h8 : i % 8 = 0) :
    WrittenTo v old start (i + 8) (Function.update data (i / 8) wholeByte) := by
  intro j
  rw [bit_update]
  split_ifs with hb hr hr
  · exact hw.byte _ (by omega)
  · omega
  · rw [h j, if_pos (by omega)]
  · rw [h j, if_neg (by omega)]

/-- A range inside the bitmap is written exactly. -/
theorem bitmapWriteLen_spec (hw : Writes v writeBit wholeByte) {map : BitMap} {start len : Nat}
    (hsize : map.size < 2 ^ 63) (hin : start + len ≤ map.size) :
    ∃ data, bitmapWriteLen writeBit wholeByte map start len = (0, { map with data := data }) ∧
      WrittenTo v map.data start (start + len) data := by
  unfold bitmapWriteLen
  rw [if_neg (by rw [sub64_of_le (by omega) (by omega)]; omega), add64_of_lt (by omega)]
  refine ⟨_, rfl, ?_⟩
  -- the invariant of the three loops: the bits below `i` are written
  let Inv : Mem × Nat → Prop := fun s =>
    start ≤ s.2 ∧ s.2 ≤ start + len ∧ WrittenTo v map.data start s.2 s.1
  let Inv8 : Mem × Nat → Prop := fun s => Inv s ∧ (s.2 % 8 = 0 ∨ s.2 = start + len)
  let left : Mem × Nat → Nat := fun s => start + len - s.2
  have hone : ∀ s, Inv s → s.2 < start + len →
      Inv (Function.update s.1 (s.2 / 8) (writeBit (s.1 (s.2 / 8)) (s.2 % 8)), s.2 + 1) := by
    rintro s ⟨h1, h2, h3⟩ hlt
    exact ⟨by simp only; omega, by simp only; omega, h3.one hw h1⟩
  have hinit : Inv (map.data, start) :=
    ⟨le_refl _, by simp, fun j => by simp only; rw [if_neg (by omega)]⟩
  obtain ⟨hinv1, hend1⟩ := whileLoop_spec (fun (s : Mem × Nat) => s.2 < start + len ∧ s.2 % 8 ≠ 0)
    (fun s => (Function.update s.1 (s.2 / 8) (writeBit (s.1 (s.2 / 8)) (s.2 % 8)), s.2 + 1))
    Inv left (fun s hs hc => by
      simp only [decide_eq_true_eq] at hc
      exact ⟨hone s hs hc.1, by simp only [left]; omega⟩)
    len (map.data, start) hinit (by simp [left])
  generalize whileLoop _ _ len (map.data, start) = s1 at *
  have hinv8 : Inv8 s1 := by
    refine ⟨hinv1, ?_⟩
    have := hinv1.2.1
    simp only [decide_eq_false_iff_not, not_and, not_not] at hend1
    omega
  obtain ⟨⟨hinv2, -⟩, -⟩ := whileLoop_spec (fun (s : Mem × Nat) => add64 s.2 8 ≤ start + len)
    (fun s => (Function.update s.1 (s.2 / 8) wholeByte, s.2 + 8))
    Inv8 left (fun s ⟨⟨h1, h2, h3⟩, h4⟩ hc => by
      rw [add64_of_lt (by omega)] at hc
      simp only [decide_eq_true_eq] at hc
      have h8 : s.2 % 8 = 0 := by omega
      exact ⟨⟨⟨by simp only; omega, by simp only; omega, h3.byte hw h1 h8⟩, by simp only; omega⟩,
        by simp only [left]; omega⟩)
    len s1 hinv8 (by have := hinv1.1; simp only [left]; omega)
  generalize whileLoop _ _ len s1 = s2 at *
  obtain ⟨⟨-, hle, hwr⟩, hend3⟩ := whileLoop_spec (fun (s : Mem × Nat) => s.2 < start + len)
    (fun s => (Function.update s.1 (s.2 / 8) (writeBit (s.1 (s.2 / 8)) (s.2 % 8)), s.2 + 1))
    Inv left (fun s hs hc => by
      simp only [decide_eq_true_eq] at hc
      exact ⟨hone s hs hc, by simp only [left]; omega⟩)
    len s2 hinv2 (by have := hinv2.1; simp only [left]; omega)
  generalize whileLoop _ _ len s2 = s3 at *
  simp only [decide_eq_false_iff_not] at hend3
  rwa [show s3.2 = start + len by omega] at hwr

end

theorem bitmapSetLen_spec {map : BitMap} {start len : Nat} (hsize : map.size < 2 ^ 63)
    (hin : start + len ≤ map.size) :
    ∃ data, bitmapSetLen map start len = (0, { map with data := data }) ∧
      WrittenTo true map.data start (start + len) data :=
  bitmapWriteLen_spec set_writes hsize hin

theorem bitmapClearLen_spec {map : BitMap} {start len : Nat} (hsize : map.size < 2 ^ 63)
    (hin : start + len ≤ map.size) :
    ∃ data, bitmapClearLen map start len = (0, { map with data := data }) ∧
      WrittenTo false map.data start (start + len) data :=
  bitmapWriteLen_spec clear_writes hsize hin

end Icarus.Memory
