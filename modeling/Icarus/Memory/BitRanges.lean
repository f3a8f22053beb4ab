/-
The range updates of `BitMap.c` byte by byte: which bytes `bitmap_set_len` and `bitmap_clear_len` write, what their
three loops leave in every bit, and when they end at all.
-/
import Icarus.Base.Traces
import Icarus.Memory.BitMap

namespace Icarus.Memory

open Icarus.Base

/-! ## The code -/

/-- `data[b] = v`; the event is the index of the byte. -/
def putByte (data : Mem) (b : Nat) (v : BitVec 8) : Run Nat Mem := do
  Run.emit [b]
  return Function.update data b v

/-- One round of `while (test(i)) { data[i / 8] = byte; i += step; }`. -/
def byteRound (test : Nat → Bool) (byte : BitVec 8 → Nat → BitVec 8) (step : Nat) (s : Mem × Nat) :
    Run Nat (Option (Mem × Nat)) :=
  if test s.2 then do
    let data ← putByte s.1 (s.2 / 8) (byte (s.1 (s.2 / 8)) (s.2 % 8))
    return some (data, add64 s.2 step)
  else return none

/-- Such a loop over whole bytes or single bits. -/
def byteLoop (test : Nat → Bool) (byte : BitVec 8 → Nat → BitVec 8) (step fuel : Nat) : Mem × Nat → Run Nat (Mem × Nat) :=
  Run.loop (fun _ => byteRound test byte step) fuel

/-- The loops of `bitmap_set_len` and `bitmap_clear_len` with their 64 bit index. -/
def bitmapWriteLenRun (writeBit : BitVec 8 → Nat → BitVec 8) (wholeByte : BitVec 8) (map : BitMap)
    (startIndex len fuel : Nat) : Run Nat (Int × BitMap) :=
  if startIndex > map.size ∨ len > sub64 map.size startIndex then return (-1, map)
  else do
    let stop := add64 startIndex len
    -- up to the next byte boundary
    let s ← byteLoop (fun i => i < stop ∧ i % 8 ≠ 0) writeBit 1 fuel (map.data, startIndex)
    -- complete bytes
    let s ← byteLoop (fun i => add64 i 8 ≤ stop) (fun _ _ => wholeByte) 8 fuel s
    -- remaining bits
    let s ← byteLoop (fun i => i < stop) writeBit 1 fuel s
    return (0, { map with data := s.1 })

/-- `bitmap_set_len`. -/
def bitmapSetLenRun : BitMap → Nat → Nat → Nat → Run Nat (Int × BitMap) :=
  bitmapWriteLenRun (fun b k => b ||| (1#8 <<< k)) 0xFF#8

/-- `bitmap_clear_len`. -/
def bitmapClearLenRun : BitMap → Nat → Nat → Nat → Run Nat (Int × BitMap) :=
  bitmapWriteLenRun (fun b k => b &&& ~~~(1#8 <<< k)) 0x00#8

/-! ## Rounds -/

section
variable {test : Nat → Bool} {byte : BitVec 8 → Nat → BitVec 8} {step : Nat} {s s' : Mem × Nat} {P : Nat → Prop}

theorem byteRound_true (h : test s.2 = true) :
    byteRound test byte step s =
      ⟨[s.2 / 8], .ok (some (Function.update s.1 (s.2 / 8) (byte (s.1 (s.2 / 8)) (s.2 % 8)), add64 s.2 step))⟩ := by
  unfold byteRound
  rw [if_pos h]
  rfl

theorem byteRound_false (h : test s.2 = false) : byteRound test byte step s = ⟨[], .ok none⟩ := by
  unfold byteRound
  rw [if_neg (by simp [h])]
  rfl

theorem byteRound_none : Run.Ends P (fun _ => byteRound test byte step s) none ↔ test s.2 = false := by
  rw [Run.ends_const]
  cases h : test s.2 with
  | true => simp [byteRound_true h]
  | false => simp [byteRound_false h]

theorem byteRound_some : Run.Ends P (fun _ => byteRound test byte step s) (some s') ↔
    test s.2 = true ∧ P (s.2 / 8) ∧
      s' = (Function.update s.1 (s.2 / 8) (byte (s.1 (s.2 / 8)) (s.2 % 8)), add64 s.2 step) := by
  rw [Run.ends_const]
  cases h : test s.2 with
  | true => simp [byteRound_true h, and_comm, eq_comm]
  | false => simp [byteRound_false h]

theorem byteLoop_steady (s : Mem × Nat) : Run.Steady (byteLoop test byte step · s) :=
  Run.loop_steady (fun s => .const (byteRound test byte step s)) s

/-- A loop whose index comes nearer to `stop` with every round ends, with its invariant. -/
theorem byteLoop_ends (test : Nat → Bool) (byte : BitVec 8 → Nat → BitVec 8) (step : Nat) (P : Nat → Prop)
    (Inv : Mem × Nat → Prop) (stop : Nat) (hs : Inv s)
    (hround : ∀ s, Inv s → test s.2 = true → P (s.2 / 8) ∧ s.2 < stop ∧ s.2 < add64 s.2 step ∧
      Inv (Function.update s.1 (s.2 / 8) (byte (s.1 (s.2 / 8)) (s.2 % 8)), add64 s.2 step)) :
    ∃ s', Run.Ends P (byteLoop test byte step · s) s' ∧ Inv s' ∧ test s'.2 = false := by
  have hrounds : ∀ s, Inv s → Run.Ends P (fun _ => byteRound test byte step s) none ∨
      ∃ s', Run.Ends P (fun _ => byteRound test byte step s) (some s') ∧ Inv s' ∧ stop - s'.2 < stop - s.2 := by
    intro s hs
    cases ht : test s.2 with
    | false => exact .inl (byteRound_none.2 ht)
    | true =>
      obtain ⟨hP, hstop, hlt, hinv⟩ := hround s hs ht
      exact .inr ⟨_, byteRound_some.2 ⟨ht, hP, rfl⟩, hinv, by dsimp only; omega⟩
  obtain ⟨s', hends, hinv, hleave⟩ := Run.ends_loop_of_inv
    (fun s => .const (byteRound test byte step s)) Inv (fun s => stop - s.2) hrounds s hs
  exact ⟨s', hends, hinv, byteRound_none.1 hleave⟩

/-- Where a loop returns, what its rounds keep holds. -/
theorem byteLoop_inv (Inv : Mem × Nat → Prop) {fuel : Nat} (h : (byteLoop test byte step fuel s).result = .ok s')
    (hs : Inv s) (hround : ∀ s, Inv s → test s.2 = true →
      Inv (Function.update s.1 (s.2 / 8) (byte (s.1 (s.2 / 8)) (s.2 % 8)), add64 s.2 step)) :
    Inv s' ∧ test s'.2 = false := by
  have hsteps : ∀ a b, Inv a → Run.Steps (fun _ => byteRound test byte step) a b → Inv b := by
    intro a b ha hab
    obtain ⟨ht, -, rfl⟩ := byteRound_some.1 (Run.ends_true.2 hab)
    exact hround a ha ht
  obtain ⟨hinv, hleave⟩ := Run.loop_inv hsteps hs ⟨fuel, h⟩
  exact ⟨hinv, byteRound_none.1 (Run.ends_true.2 hleave)⟩

end

/-- The bits of a range, and the others, are the whole memory. -/
theorem WrittenTo.unique {v : Bool} {old data data' : Mem} {start stop : Nat} (h : WrittenTo v old start stop data)
    (h' : WrittenTo v old start stop data') : data = data' :=
  mem_ext_bit fun j => (h j).trans (h' j).symm

/-! ## Ranges -/

/-- What a range update does: it refuses what is not inside the bitmap, without a write, and writes the rest of the
ranges bit for bit, into bytes that hold bits of the bitmap. -/
structure RangeExact (v : Bool) (map : BitMap) (start len : Nat) (x : Nat → Run Nat (Int × BitMap)) : Prop where
  refused_iff : (∃ map', Run.Returns x (-1, map')) ↔ map.size < start + len
  refused : map.size < start + len → Run.Ends (fun _ => False) x (-1, map)
  written : start + len ≤ map.size → ∃ data, Run.Ends (fun b => 8 * b < map.size) x (0, { map with data := data }) ∧
    WrittenTo v map.data start (start + len) data

section
variable {v : Bool} {writeBit : BitVec 8 → Nat → BitVec 8} {wholeByte : BitVec 8} {map : BitMap} {start len : Nat}

/-- The test is exact where the sum of its two parts would wrap around. -/
theorem range_refused (hsize : map.size < 2 ^ 64) (hout : map.size < start + len) :
    start > map.size ∨ len > sub64 map.size start := by
  by_cases hstart : start > map.size
  · exact .inl hstart
  · rw [sub64_of_le (by omega) hsize]
    exact .inr (by omega)

theorem bitmapWriteLenRun_refused (hsize : map.size < 2 ^ 64) (hout : map.size < start + len) :
    (bitmapWriteLenRun writeBit wholeByte map start len ·) = fun _ => pure (-1, map) := by
  funext fuel
  unfold bitmapWriteLenRun
  rw [if_pos (range_refused hsize hout)]

theorem bitmapWriteLenRun_inside (hsize : map.size < 2 ^ 64) (hin : start + len ≤ map.size) (fuel : Nat) :
    bitmapWriteLenRun writeBit wholeByte map start len fuel = (do
      let s ← byteLoop (fun i => i < start + len ∧ i % 8 ≠ 0) writeBit 1 fuel (map.data, start)
      let s ← byteLoop (fun i => add64 i 8 ≤ start + len) (fun _ _ => wholeByte) 8 fuel s
      let s ← byteLoop (fun i => i < start + len) writeBit 1 fuel s
      return (0, { map with data := s.1 })) := by
  unfold bitmapWriteLenRun
  rw [if_neg (by rw [sub64_of_le (by omega) hsize]; omega), add64_of_lt (by omega)]

theorem bitmapWriteLenRun_steady : Run.Steady (bitmapWriteLenRun writeBit wholeByte map start len ·) := by
  unfold bitmapWriteLenRun
  split_ifs
  · exact .const _
  · exact (byteLoop_steady _).bind fun s => (byteLoop_steady s).bind fun s =>
      (byteLoop_steady s).bind fun s => .const _

/-- The three loops, with a bit behind the range left to count to. -/
theorem bitmapWriteLenRun_written (hw : Writes v writeBit wholeByte) (hsize : map.size < 2 ^ 64)
    (hin : start + len ≤ map.size) (hroom : start + len + 8 < 2 ^ 64) :
    ∃ data, Run.Ends (fun b => 8 * b < map.size) (bitmapWriteLenRun writeBit wholeByte map start len ·)
      (0, { map with data := data }) ∧ WrittenTo v map.data start (start + len) data := by
  -- the bits below the index are written, and from the second loop on it is aligned or at the end
  let Inv : Mem × Nat → Prop := fun s => start ≤ s.2 ∧ s.2 ≤ start + len ∧ WrittenTo v map.data start s.2 s.1
  let Inv8 : Mem × Nat → Prop := fun s => Inv s ∧ (s.2 % 8 = 0 ∨ s.2 = start + len)
  have hone : ∀ s, Inv s → s.2 < start + len → 8 * (s.2 / 8) < map.size ∧ s.2 < start + len ∧ s.2 < add64 s.2 1 ∧
      Inv (Function.update s.1 (s.2 / 8) (writeBit (s.1 (s.2 / 8)) (s.2 % 8)), add64 s.2 1) := by
    rintro s ⟨h1, h2, h3⟩ hlt
    rw [add64_of_lt (by omega)]
    exact ⟨by omega, hlt, by omega, by dsimp only; omega, by dsimp only; omega, h3.one hw h1⟩
  have hinit : Inv (map.data, start) :=
    ⟨le_rfl, Nat.le_add_right .., fun j => by dsimp only; rw [if_neg (by omega)]⟩
  obtain ⟨s₁, hends₁, hinv₁, hleave₁⟩ := byteLoop_ends (fun i => i < start + len ∧ i % 8 ≠ 0) writeBit 1
    (fun b => 8 * b < map.size) Inv (start + len) hinit fun s hs ht => hone s hs (of_decide_eq_true ht).1
  have hinv8 : Inv8 s₁ := by
    refine ⟨hinv₁, ?_⟩
    have hle := hinv₁.2.1
    have hleave := of_decide_eq_false hleave₁
    omega
  obtain ⟨s₂, hends₂, ⟨hinv₂, -⟩, -⟩ := byteLoop_ends (fun i => add64 i 8 ≤ start + len) (fun _ _ => wholeByte) 8
    (fun b => 8 * b < map.size) Inv8 (start + len) hinv8 (by
      rintro s ⟨⟨h1, h2, h3⟩, h4⟩ ht
      have hle := of_decide_eq_true ht
      rw [add64_of_lt (by omega)] at hle ⊢
      have h8 : s.2 % 8 = 0 := by omega
      exact ⟨by omega, by omega, by omega, ⟨by dsimp only; omega, hle, h3.byte hw h1 h8⟩, .inl (by dsimp only; omega)⟩)
  obtain ⟨s₃, hends₃, ⟨-, hle₃, hwritten⟩, hleave₃⟩ := byteLoop_ends (fun i => i < start + len) writeBit 1
    (fun b => 8 * b < map.size) Inv (start + len) hinv₂ fun s hs ht => hone s hs (of_decide_eq_true ht)
  have hstop : s₃.2 = start + len := by
    have hleave := of_decide_eq_false hleave₃
    omega
  refine ⟨s₃.1, ?_, hstop ▸ hwritten⟩
  rw [funext fun fuel => bitmapWriteLenRun_inside hsize hin fuel]
  refine (Run.ends_bind (byteLoop_steady _) fun s => (byteLoop_steady s).bind fun s => ?_).2 ⟨s₁, hends₁, ?_⟩
  · exact (byteLoop_steady s).bind fun s => .const _
  refine (Run.ends_bind (byteLoop_steady _) fun s => ?_).2 ⟨s₂, hends₂, ?_⟩
  · exact (byteLoop_steady s).bind fun s => .const _
  refine (Run.ends_bind (byteLoop_steady _) fun s => ?_).2 ⟨s₃, hends₃, Run.ends_pure.2 rfl⟩
  exact .const _

/-- In a range that ends eight bits below `2^64` the index of the second loop wraps around to 0, and the loop goes on. -/
theorem bitmapWriteLenRun_hangs (hsize : map.size < 2 ^ 64) (hin : start + len ≤ map.size)
    (hend : start + len + 8 = 2 ^ 64) (r : Int × BitMap) :
    ¬Run.Returns (bitmapWriteLenRun writeBit wholeByte map start len ·) r := by
  rintro ⟨fuel, hret⟩
  dsimp only at hret
  rw [bitmapWriteLenRun_inside hsize hin] at hret
  obtain ⟨s₁, h₁, hret⟩ := Run.bind_result_eq_ok.1 hret
  obtain ⟨s₂, h₂, -⟩ := Run.bind_result_eq_ok.1 hret
  obtain ⟨⟨hle, hlt⟩, hleave₁⟩ := byteLoop_inv (fun s => s.2 ≤ start + len ∧ s.2 < 2 ^ 64) h₁
    ⟨by dsimp only; omega, by dsimp only; omega⟩ fun s _ ht => by
      obtain ⟨hlt, -⟩ := of_decide_eq_true ht
      dsimp only
      rw [add64_of_lt (by omega)]
      omega
  have halign : s₁.2 % 8 = 0 := by
    have hleave := of_decide_eq_false hleave₁
    omega
  -- an aligned index never leaves the second loop
  obtain ⟨⟨h8, hlt⟩, hleave₂⟩ := byteLoop_inv (fun s => s.2 % 8 = 0 ∧ s.2 < 2 ^ 64) h₂ ⟨halign, hlt⟩ fun s hs _ => by
    obtain ⟨h8, -⟩ := hs
    dsimp only
    unfold add64 u64
    omega
  have hleave := of_decide_eq_false hleave₂
  unfold add64 u64 at hleave
  omega

theorem bitmapWriteLenRun_exact (hw : Writes v writeBit wholeByte) (hsize : map.size < 2 ^ 63) (start len : Nat) :
    RangeExact v map start len (bitmapWriteLenRun writeBit wholeByte map start len ·) := by
  have hrefused : map.size < start + len →
      Run.Ends (fun _ => False) (bitmapWriteLenRun writeBit wholeByte map start len ·) (-1, map) := by
    intro hout
    rw [bitmapWriteLenRun_refused (by omega) hout]
    exact Run.ends_pure.2 rfl
  have hwritten := fun hin => @bitmapWriteLenRun_written v writeBit wholeByte map start len hw (by omega) hin
  refine ⟨⟨?_, fun hout => ⟨map, (hrefused hout).returns⟩⟩, hrefused, fun hin => hwritten hin (by omega)⟩
  rintro ⟨map', hret⟩
  by_contra hin
  obtain ⟨data, hends, -⟩ := hwritten (by omega) (by omega)
  have hcode : (-1 : Int) = 0 := congrArg Prod.fst (hret.unique bitmapWriteLenRun_steady hends.returns)
  exact absurd hcode (by decide)

/-- The loops return what the loops without bytes to write and with a bound on their rounds do. -/
theorem bitmapWriteLenRun_returns (hw : Writes v writeBit wholeByte) (hsize : map.size < 2 ^ 63) (start len : Nat) :
    Run.Returns (bitmapWriteLenRun writeBit wholeByte map start len ·)
      (bitmapWriteLen writeBit wholeByte map start len) := by
  by_cases hin : start + len ≤ map.size
  · obtain ⟨data, hends, hwritten⟩ := bitmapWriteLenRun_written hw (by omega) hin (by omega)
    obtain ⟨data', hdone, hwritten'⟩ := bitmapWriteLen_spec hw hsize hin
    rw [hdone, hwritten'.unique hwritten]
    exact hends.returns
  · have hrefused : bitmapWriteLen writeBit wholeByte map start len = (-1, map) := by
      unfold bitmapWriteLen
      rw [if_pos (range_refused (by omega) (by omega))]
    rw [bitmapWriteLenRun_refused (by omega) (by omega), hrefused]
    exact ⟨0, rfl⟩

/-- A range of a bitmap below `2^63` bits is refused exactly if it is not inside the bitmap, and nothing is written;
every other range is set, or cleared, bit for bit, in bytes that hold bits of the bitmap. It is what the loops with a
bound on their rounds return. -/
theorem bitmap_ranges_exact (hsize : map.size < 2 ^ 63) (start len : Nat) :
    RangeExact true map start len (bitmapSetLenRun map start len) ∧
      RangeExact false map start len (bitmapClearLenRun map start len) ∧
        Run.Returns (bitmapSetLenRun map start len ·) (bitmapSetLen map start len) ∧
          Run.Returns (bitmapClearLenRun map start len ·) (bitmapClearLen map start len) :=
  ⟨bitmapWriteLenRun_exact set_writes hsize start len, bitmapWriteLenRun_exact clear_writes hsize start len,
    bitmapWriteLenRun_returns set_writes hsize start len, bitmapWriteLenRun_returns clear_writes hsize start len⟩

end

/-- Six bits across a byte boundary. -/
theorem bitmap_ranges_exact_six :
    RangeExact true ⟨12, fun _ => 0⟩ 5 6 (bitmapSetLenRun ⟨12, fun _ => 0⟩ 5 6) ∧
      RangeExact false ⟨12, fun _ => 0⟩ 5 6 (bitmapClearLenRun ⟨12, fun _ => 0⟩ 5 6) := by
  obtain ⟨hset, hclear, -⟩ := @bitmap_ranges_exact ⟨12, fun _ => 0⟩ (by decide) 5 6
  exact ⟨hset, hclear⟩

end Icarus.Memory
