/-
The word-wise search of `map_alloc_frame_contiguous` against the naive one: `find_run_in_word`
returns the first run of free bits of a word, and the word loop the first run of free frames of a
slice, whatever the slice holds and however a run crosses its words.
-/
import Icarus.Memory.MemMap

namespace Icarus.Memory

open Icarus.Base

/-! ## Inside a word -/

theorem findRunInWord_mask (word : BitVec 64) {n : Nat} (hn : 0 < n) :
    ∃ M, RunMask (~~~word) n M ∧ findRunInWord word n = if M = 0#64 then none else some M.ctz.toNat := by
  unfold findRunInWord
  -- the mask stands for the runs of `covered` bits, and `covered` stays within the length
  obtain ⟨⟨h1, h2, hmask⟩, hend⟩ := whileLoop_spec (fun (s : BitVec 64 × Nat) => s.2 * 2 ≤ n)
    (fun s => (s.1 &&& (s.1 >>> s.2), s.2 * 2)) (fun s => 0 < s.2 ∧ s.2 ≤ n ∧ RunMask (~~~word) s.2 s.1)
    (fun s => n - s.2) (fun s ⟨h1, h2, h3⟩ hc => by
      simp only [decide_eq_true_eq] at hc
      refine ⟨⟨by simp only; omega, hc, ?_⟩, by simp only; omega⟩
      rw [Nat.mul_two]
      exact h3.shift (le_refl _))
    n (~~~word, 1) ⟨by simp, hn, RunMask.one _⟩ (by simp)
  generalize whileLoop _ _ n (~~~word, 1) = s at *
  obtain ⟨mask, covered⟩ := s
  simp only [decide_eq_false_iff_not] at hend h1 h2 hmask ⊢
  by_cases hlt : covered < n
  · rw [if_pos hlt]
    have := hmask.shift (show n - covered ≤ covered by omega)
    rw [show covered + (n - covered) = n by omega] at this
    exact ⟨_, this, rfl⟩
  · rw [if_neg hlt]
    rw [show covered = n by omega] at hmask
    exact ⟨_, hmask, rfl⟩

theorem findRunInWord_some {word : BitVec 64} {n i : Nat} (hn : 0 < n) (h : findRunInWord word n = some i) :
    FirstRun (fun j => (~~~word).getLsbD j = true) 64 n i := by
  obtain ⟨M, hM, heq⟩ := findRunInWord_mask word hn
  rw [heq] at h
  split_ifs at h with h0
  cases h
  exact hM.firstRun hn h0

theorem findRunInWord_none {word : BitVec 64} {n : Nat} (hn : 0 < n) (h : findRunInWord word n = none) :
    NoRun (fun j => (~~~word).getLsbD j = true) 64 n := by
  obtain ⟨M, hM, heq⟩ := findRunInWord_mask word hn
  rw [heq] at h
  split_ifs at h with h0
  exact hM.noRun h0

/-- `n` free bits of the word, from bit `i` on. -/
def FreeRun (word : BitVec 64) (n i : Nat) : Prop := i + n ≤ 64 ∧ ∀ j < n, word.getLsbD (i + j) = false

/-- As the bits of the complement, which is what the search shifts over itself. -/
theorem freeRun_iff {word : BitVec 64} {n i : Nat} (hn : 0 < n) :
    FreeRun word n i ↔ IsRun (fun j => (~~~word).getLsbD j = true) i n := by
  have hbit : ∀ j, (~~~word).getLsbD j = true ↔ j < 64 ∧ word.getLsbD j = false := by
    intro j
    rw [BitVec.getLsbD_not, Bool.and_eq_true, decide_eq_true_eq, Bool.not_eq_true']
  constructor
  · rintro ⟨hfits, hfree⟩ j hj
    exact (hbit _).2 ⟨by omega, hfree j hj⟩
  · intro hrun
    refine ⟨?_, fun j hj => ((hbit _).1 (hrun j hj)).2⟩
    have hlast := ((hbit _).1 (hrun (n - 1) (by omega))).1
    omega

/-- `find_run_in_word` with another right shift. -/
def findRunInWordBy (shr : BitVec 64 → Nat → BitVec 64) (word : BitVec 64) (runLength : Nat) : Option Nat :=
  let (freeMask, covered) := whileLoop (fun (_, covered) => covered * 2 ≤ runLength)
    (fun (mask, covered) => (mask &&& shr mask covered, covered * 2)) runLength (~~~word, 1)
  let freeMask := if covered < runLength then freeMask &&& shr freeMask (runLength - covered) else freeMask
  if freeMask = 0#64 then none else some freeMask.ctz.toNat

/-- No length up to that of the word shifts by 64 or more, where a shift is undefined. -/
theorem findRunInWordBy_eq {shr : BitVec 64 → Nat → BitVec 64} (hshr : ∀ x k, k < 64 → shr x k = x >>> k)
    (word : BitVec 64) {n : Nat} (hn : 0 < n) (h64 : n ≤ 64) : findRunInWordBy shr word n = findRunInWord word n := by
  obtain ⟨hloop, hpos⟩ := whileLoop_congr (fun (s : BitVec 64 × Nat) => s.2 * 2 ≤ n)
    (fun s => (s.1 &&& (s.1 >>> s.2), s.2 * 2)) (fun s => (s.1 &&& shr s.1 s.2, s.2 * 2))
    (fun s => 0 < s.2) (fun s hs hc => by
      have hle := of_decide_eq_true hc
      exact ⟨by rw [hshr _ _ (by omega)], by dsimp only; omega⟩) n (~~~word, 1) (by simp)
  unfold findRunInWord findRunInWordBy
  dsimp only at hloop hpos ⊢
  rw [hloop]
  generalize whileLoop _ _ n (~~~word, 1) = s at hpos ⊢
  rw [hshr _ _ (show n - s.2 < 64 by omega)]

/-- `find_run_in_word` returns the first run of free bits that the word has room for, and `-1` exactly if there is
none. For lengths up to that of the word it does not matter what a shift by 64 or more would give. -/
theorem find_run_in_word_exact (word : BitVec 64) {n : Nat} (hn : 0 < n) :
    (∀ i, findRunInWord word n = some i ↔ FreeRun word n i ∧ ∀ k < i, ¬FreeRun word n k) ∧
      (findRunInWord word n = none ↔ ¬∃ i, FreeRun word n i) ∧
        (n ≤ 64 → ∀ shr : BitVec 64 → Nat → BitVec 64, (∀ x k, k < 64 → shr x k = x >>> k) →
          findRunInWordBy shr word n = findRunInWord word n) := by
  have hfirst : ∀ i, findRunInWord word n = some i → FreeRun word n i ∧ ∀ k < i, ¬FreeRun word n k := by
    intro i hi
    have hrun := findRunInWord_some hn hi
    exact ⟨(freeRun_iff hn).2 hrun.run, fun k hk hfree => hrun.least k hk ((freeRun_iff hn).1 hfree)⟩
  have hnone : findRunInWord word n = none → ¬∃ i, FreeRun word n i := by
    rintro h ⟨i, hfree⟩
    exact findRunInWord_none hn h i hfree.1 ((freeRun_iff hn).1 hfree)
  refine ⟨fun i => ⟨hfirst i, ?_⟩, ⟨hnone, ?_⟩, fun h64 shr hshr => findRunInWordBy_eq hshr word hn h64⟩
  · rintro ⟨hfree, hleast⟩
    cases h : findRunInWord word n with
    | none => exact absurd ⟨i, hfree⟩ (hnone h)
    | some k =>
      -- two first runs are one
      obtain ⟨hfree', hleast'⟩ := hfirst k h
      rcases Nat.lt_trichotomy i k with hlt | rfl | hlt
      · exact absurd hfree (hleast' i hlt)
      · rfl
      · exact absurd hfree' (hleast k hlt)
  · intro hno
    cases h : findRunInWord word n with
    | none => rfl
    | some i => exact absurd ⟨i, (hfirst i h).1⟩ hno

/-- Forty free bits behind eight used ones. -/
theorem find_run_in_word_exact_forty :
    (∀ i, findRunInWord 0xFFFF0000000000FF#64 40 = some i ↔
      FreeRun 0xFFFF0000000000FF#64 40 i ∧ ∀ k < i, ¬FreeRun 0xFFFF0000000000FF#64 40 k) ∧
      (findRunInWord 0xFFFF0000000000FF#64 40 = none ↔ ¬∃ i, FreeRun 0xFFFF0000000000FF#64 40 i) := by
  obtain ⟨hfirst, hnone, -⟩ := find_run_in_word_exact 0xFFFF0000000000FF#64 (n := 40) (by decide)
  exact ⟨hfirst, hnone⟩

/-! ## Ends of a word -/

theorem free_below_ctz {word : BitVec 64} {i : Nat} (h : i < word.ctz.toNat) : word.getLsbD i = false :=
  BitVec.getLsbD_false_of_lt_ctz h

theorem ctz_lt {word : BitVec 64} (h : word ≠ 0#64) : word.ctz.toNat < 64 :=
  BitVec.lt_of_getLsbD (BitVec.getLsbD_true_ctz_of_ne_zero h)

theorem clz_lt {word : BitVec 64} (h : word ≠ 0#64) : word.clz.toNat < 64 :=
  BitVec.clz_lt_iff_ne_zero.2 h

theorem free_above_clz {word : BitVec 64} {i : Nat} (h : 64 - word.clz.toNat ≤ i) :
    word.getLsbD i = false :=
  Nat.testBit_lt_two_pow (lt_of_lt_of_le BitVec.toNat_lt_two_pow_sub_clz (Nat.pow_le_pow_right (by decide) h))

/-! ## The word loop -/

/-- The frames of a slice that the bitmap marks free. -/
def FreeAt (data : Mem) (bitmapStart : Nat) (j : Nat) : Prop := data.bit (bitmapStart + j) = false

section
variable {data : Mem} {base n : Nat}

/-- Bit `i` of word `q` of a slice is the bit of frame `64 q + i`. -/
theorem word_bit (hbase : base % 64 = 0) (q : Nat) {i : Nat} (hi : i < 64) :
    (data.load64 (base / 8 + q * 8)).getLsbD i = data.bit (base + (64 * q + i)) := by
  rw [Mem.load64_bit _ _ hi, show 8 * (base / 8 + q * 8) + i = base + (64 * q + i) by omega]

/-- A run inside the word is a run of the slice. -/
theorem free_in_word (hbase : base % 64 = 0) (q j : Nat) :
    (~~~(data.load64 (base / 8 + q * 8))).getLsbD j = true ↔ j < 64 ∧ FreeAt data base (64 * q + j) := by
  rw [BitVec.getLsbD_not, Bool.and_eq_true, decide_eq_true_eq]
  constructor
  · rintro ⟨hj, h⟩
    rw [word_bit hbase q hj] at h
    exact ⟨hj, by simpa [FreeAt] using h⟩
  · rintro ⟨hj, h⟩
    rw [word_bit hbase q hj]
    exact ⟨hj, by simpa [FreeAt] using h⟩

theorem firstRun_in_word (hbase : base % 64 = 0) {q i : Nat}
    (h : FirstRun (fun j => (~~~(data.load64 (base / 8 + q * 8))).getLsbD j = true) 64 n i) :
    FirstRun (fun j => FreeAt data base (64 * q + j)) 64 n i := by
  refine ⟨fun j hj => ((free_in_word hbase q _).1 (h.run j hj)).2, h.fits, fun k hk hrun => ?_⟩
  have hfits := h.fits
  exact h.least k hk fun j hj => (free_in_word hbase q _).2 ⟨by omega, hrun j hj⟩

theorem noRun_in_word (hbase : base % 64 = 0) {q : Nat}
    (h : NoRun (fun j => (~~~(data.load64 (base / 8 + q * 8))).getLsbD j = true) 64 n) :
    NoRun (fun j => FreeAt data base (64 * q + j)) 64 n :=
  fun k hk hrun => h k hk fun j hj => (free_in_word hbase q _).2 ⟨by omega, hrun j hj⟩

/-- The word loop from word `q` on returns the start of the first run of the slice, and nothing if
there is none. Its variables hold 32 bits: a slice of `2^32` bits must not end in a free one. -/
theorem scanWords_spec (hbase : base % 64 = 0) (hn : 0 < n) : ∀ (words q c s : Nat),
    64 * (q + words) ≤ 2 ^ 32 → (64 * (q + words) = 2 ^ 32 → ¬FreeAt data base (2 ^ 32 - 1)) →
      Carry (FreeAt data base) n (64 * q) c → (c ≠ 0 → s = 64 * q - c) →
    match scanWords data base n words q c s with
    | some i => FirstRun (FreeAt data base) (64 * (q + words)) n i
    | none => NoRun (FreeAt data base) (64 * (q + words)) n
  | 0, q, c, s, _, _, hc, _ => by simpa [scanWords] using hc.noRun
  | words + 1, q, c, s, hq, hlast, hc, hs => by
    unfold scanWords
    have hle := hc.le
    have hcn := hc.lt
    rw [show u32 (q * 8) = q * 8 from u32_of_lt (by omega), show u32 (q * 64) = q * 64 from u32_of_lt (by omega)]
    -- the start of the carried run, whether it begins here or earlier
    have hstart : (if c = 0 then q * 64 else s) = 64 * q - c := by
      split_ifs with h0
      · omega
      · exact hs h0
    simp only [hstart]
    generalize hw : data.load64 (base / 8 + q * 8) = word
    have hbit : ∀ i, i < 64 → (word.getLsbD i = false ↔ FreeAt data base (64 * q + i)) := by
      intro i hi
      rw [← hw, word_bit hbase q hi]
      exact Iff.rfl
    rw [show 64 * (q + (words + 1)) = 64 * (q + 1 + words) by omega] at hq hlast ⊢
    by_cases hzero : word = 0#64
    · have hfree : IsRun (FreeAt data base) (64 * q) 64 := fun j hj =>
        (hbit j hj).1 (by rw [hzero]; simp)
      -- the last word of a slice of 2^32 bits is not wholly free
      have hsum : c + 64 < 2 ^ 32 := by
        by_contra hge
        have hfull : 64 * q + 64 = 2 ^ 32 := by omega
        have hend := hfree 63 (by decide)
        rw [show 64 * q + 63 = 2 ^ 32 - 1 by omega] at hend
        exact hlast (by omega) hend
      rw [if_pos hzero, u32_of_lt hsum]
      by_cases hlong : n ≤ c + 64
      · -- a wholly free word that completes the run
        rw [if_pos hlong]
        exact (hc.firstRun hfree hlong).mono (by omega)
      · -- a wholly free word that is carried on
        rw [if_neg hlong]
        have hcarry := hc.free_word hfree (by omega)
        rw [show 64 * q + 64 = 64 * (q + 1) by omega] at hcarry
        exact scanWords_spec hbase hn words (q + 1) (c + 64) (64 * q - c) hq hlast hcarry (by omega)
    · have hlt := ctz_lt hzero
      rw [if_neg hzero, u32_of_lt (by omega)]
      by_cases hlead : n ≤ c + word.ctz.toNat
      · -- the free bits at the bottom complete the run
        rw [if_pos hlead]
        have hfree : IsRun (FreeAt data base) (64 * q) word.ctz.toNat := fun j hj =>
          (hbit j (by omega)).1 (free_below_ctz hj)
        exact (hc.firstRun hfree hlead).mono (by omega)
      · rw [if_neg hlead]
        have hblocked : ¬ FreeAt data base (64 * q + word.ctz.toNat) := by
          rw [← hbit _ hlt, BitVec.getLsbD_true_ctz_of_ne_zero hzero]
          simp
        cases hf : if n ≤ 64 then findRunInWord word n else none with
        | some i =>
          -- the run lies inside this word
          have hin : FirstRun (fun j => FreeAt data base (64 * q + j)) 64 n i := by
            split_ifs at hf
            rw [← hw] at hf
            exact firstRun_in_word hbase (findRunInWord_some hn hf)
          have hfits := hin.fits
          simp only
          rw [u32_of_lt (by omega), Nat.mul_comm q 64]
          exact (hc.firstRun_in_word hblocked (by omega) hin).mono (by omega)
        | none =>
          -- only the free bits at the top are carried on
          have hno : NoRun (fun j => FreeAt data base (64 * q + j)) 64 n := by
            split_ifs at hf with hn64
            · rw [← hw] at hf
              exact noRun_in_word hbase (findRunInWord_none hn hf)
            · intro k hk
              omega
          have hclz := clz_lt hzero
          have htail : IsRun (FreeAt data base) (64 * q + 64 - word.clz.toNat) word.clz.toNat := by
            intro j hj
            have := (hbit (64 - word.clz.toNat + j) (by omega)).1 (free_above_clz (by omega))
            rwa [show 64 * q + 64 - word.clz.toNat + j = 64 * q + (64 - word.clz.toNat + j) by omega]
          have htop : ¬ FreeAt data base (64 * q + 64 - word.clz.toNat - 1) := by
            have := BitVec.getLsbD_true_clz_of_ne_zero (by decide) hzero
            rw [show 64 * q + 64 - word.clz.toNat - 1 = 64 * q + (64 - 1 - word.clz.toNat) by omega,
              ← hbit _ (by omega), this]
            simp
          have hcarry := hc.blocked_word hblocked (by omega) hno hclz htail htop
          rw [show 64 * q + 64 = 64 * (q + 1) by omega] at hcarry
          refine scanWords_spec hbase hn words (q + 1) _ _ hq hlast hcarry fun htail0 => ?_
          rw [u32_of_lt (by omega)]
          omega

end

end Icarus.Memory
