/-
`tar_count_files` counts the regular files of every archive, however it ends, and never reads outside of what it is given.
-/
import Icarus.Files.Tar

namespace Icarus.Files

open Icarus.Base

section
variable {read : Reads} {a n archiveEnd fuel start : Nat} {e : TarEntry} {es : List TarEntry} {m : Mem}

/-! ## Archives -/

/-- The bytes of an archive with these entries: a block of zeros ends it, or nothing does, or the data of its last entry
are cut. -/
inductive Archive : List TarEntry → List (BitVec 8) → Prop
  | zeroBlock (es : List TarEntry) (rest : List (BitVec 8)) :
    Archive es (encodeEntries es ++ (List.replicate tarBlockSize 0 ++ rest))
  | exact (es : List TarEntry) : Archive es (encodeEntries es)
  | cut (es : List TarEntry) (e : TarEntry) (n : Nat) : n ≤ e.data.length →
    Archive (es ++ [e]) (encodeEntries es ++ (e.header ++ e.data.take n))

/-- The memory at `a` holds the bytes. -/
def HoldsAt (m : Mem) (a : Nat) (bytes : List (BitVec 8)) : Prop := ∀ i b, bytes[i]? = some b → m (a + i) = b

/-- Memory that is zero but for these bytes at `a`. -/
def layBytes (a : Nat) (bytes : List (BitVec 8)) : Mem := fun x => if a ≤ x then bytes.getD (x - a) 0 else 0

theorem holdsAt_layBytes {bytes : List (BitVec 8)} : HoldsAt (layBytes a bytes) a bytes := by
  intro i b hb
  unfold layBytes
  rw [if_pos (Nat.le_add_right ..), Nat.add_sub_cancel_left, List.getD_eq_getElem?_getD, hb]
  rfl

theorem shows_within {bytes : List (BitVec 8)} (h : HoldsAt m a bytes) :
    Shows (within m a (a + bytes.length)) a bytes := by
  intro i b hb
  have hi := (List.getElem?_eq_some_iff.1 hb).1
  rw [← h i b hb]
  exact if_pos ⟨Nat.le_add_right .., by omega⟩

theorem regular_iff : (e.typeflag.toNat = '0'.toNat ∨ e.typeflag.toNat = 0) ↔ e.regular = true := by
  have h0 : (BitVec.ofNat 8 '0'.toNat).toNat = '0'.toNat := rfl
  have hz : (0 : BitVec 8).toNat = 0 := rfl
  unfold TarEntry.regular
  rw [Bool.or_eq_true, beq_iff_eq, beq_iff_eq, ← BitVec.toNat_inj, ← BitVec.toNat_inj, h0, hz]

/-- A round at a header goes on behind its data. -/
theorem countFiles_header (h : HeaderAt read a e) (hin : a + 512 ≤ archiveEnd)
    (hnext : a + (512 + paddedSize e.size) < 2 ^ 64) : countFiles read archiveEnd (fuel + 1) a n =
      countFiles read archiveEnd fuel (a + (512 + paddedSize e.size)) (n + if e.regular then 1 else 0) := by
  obtain ⟨c, hc, hname⟩ := h.name
  have hzero : offsetOf tarHeader 0 = 0 := rfl
  have htype : offsetOf tarHeader 7 = 156 := rfl
  have hpad : tarBlockSize + (e.size + tarBlockSize - 1) / tarBlockSize * tarBlockSize = 512 + paddedSize e.size := rfl
  have hcount : (if e.typeflag.toNat = '0'.toNat ∨ e.typeflag.toNat = 0 then n + 1 else n) =
      n + if e.regular then 1 else 0 := by
    by_cases hr : e.regular = true
    · rw [if_pos (regular_iff.2 hr), if_pos hr]
    · rw [if_neg (fun h => hr (regular_iff.1 h)), if_neg hr, Nat.add_zero]
  conv_lhs => unfold countFiles
  rw [add64_of_lt (by unfold tarBlockSize; omega), if_pos (by unfold tarBlockSize; exact hin), hzero,
    add64_of_lt (by omega), Nat.add_zero, hname]
  show (if c = 0 then _ else _) = _
  rw [if_neg hc, h.parseOctal (by omega), add64_of_lt (by omega), h.typeflag]
  show countFiles read archiveEnd fuel (add64 a (tarBlockSize + _)) _ = _
  rw [hpad, add64_of_lt hnext, hcount]

/-- Entries one after the other are gone through. -/
theorem countFiles_entries (h : Shows read a (encodeEntries es)) (hin : a + (encodeEntries es).length ≤ archiveEnd)
    (hend : archiveEnd < 2 ^ 64) : countFiles read archiveEnd (es.length + fuel) a n =
      countFiles read archiveEnd fuel (a + (encodeEntries es).length) (n + es.countP TarEntry.regular) := by
  induction es generalizing a n with
  | nil => simp [encodeEntries]
  | cons e es ih =>
    have hcons : encodeEntries (e :: es) = e.encode ++ encodeEntries es := List.flatMap_cons
    rw [hcons, List.length_append, length_encode] at hin ⊢
    rw [hcons, shows_append, length_encode] at h
    have hheader := headerAt_of_shows (shows_append.1 h.1).1
    rw [List.length_cons, show es.length + 1 + fuel = es.length + fuel + 1 by omega,
      countFiles_header hheader (by omega) (by omega), ih h.2 (by omega), List.countP_cons, Nat.add_assoc a]
    congr 1
    omega

/-- The walk ends behind the last block that is there. -/
theorem countFiles_behind (h : archiveEnd < a + 512) (ha : a + 512 < 2 ^ 64) :
    countFiles read archiveEnd (fuel + 1) a n = .ok n := by
  unfold countFiles tarBlockSize
  rw [add64_of_lt ha, if_neg (by omega)]

/-- It ends at a block of zeros. -/
theorem countFiles_zero (h : read a = .ok 0) (hin : a + 512 ≤ archiveEnd) (hend : archiveEnd < 2 ^ 64) :
    countFiles read archiveEnd (fuel + 1) a n = .ok n := by
  have hzero : offsetOf tarHeader 0 = 0 := rfl
  unfold countFiles tarBlockSize
  rw [add64_of_lt (by omega), if_pos hin, hzero, add64_of_lt (by omega), Nat.add_zero, h]
  rfl

theorem paddedSize_lt : paddedSize e.size < 2 ^ 34 := by
  have hlt := e.size_lt
  unfold paddedSize
  omega

/-- Every entry takes a block at least, so the walk has fuel for all of them. -/
theorem exists_fuel {k length : Nat} (hk : 512 * k ≤ length) :
    ∃ fuel, (start + length) / tarBlockSize + 1 = k + (fuel + 1) := by
  refine ⟨(start + length) / 512 - k, ?_⟩
  unfold tarBlockSize
  omega

/-- An archive that a block of zeros ends is counted. -/
theorem tarCountFiles_zeroBlock {rest : List (BitVec 8)}
    (h : Shows read start (encodeEntries es ++ (List.replicate tarBlockSize 0 ++ rest)))
    (hbound : start + (encodeEntries es ++ (List.replicate tarBlockSize 0 ++ rest)).length < 2 ^ 64) :
    tarCountFiles read start (encodeEntries es ++ (List.replicate tarBlockSize 0 ++ rest)).length =
      .ok (es.countP TarEntry.regular) := by
  obtain ⟨hentries, htail⟩ := shows_append.1 h
  have hle : 512 * es.length ≤ (encodeEntries es ++ (List.replicate tarBlockSize 0 ++ rest)).length := by
    rw [List.length_append]
    exact length_encodeEntries_ge.trans (Nat.le_add_right ..)
  obtain ⟨fuel, hf⟩ := @exists_fuel start _ _ hle
  unfold tarCountFiles
  dsimp only
  rw [add64_of_lt hbound, hf, countFiles_entries hentries (by simp) hbound, Nat.zero_add]
  refine countFiles_zero ?_ ?_ hbound
  · exact (shows_append.1 htail).1 0 0 (by rw [List.getElem?_replicate, if_pos (by decide)])
  · simp only [List.length_append, List.length_replicate, tarBlockSize]
    omega

/-- Every archive is counted, also by a walk that faults outside of it. -/
theorem tarCountFiles_archive {bytes : List (BitVec 8)} (harchive : Archive es bytes) (h : Shows read start bytes)
    (hbound : start + bytes.length ≤ 2 ^ 62) :
    tarCountFiles read start bytes.length = .ok (es.countP TarEntry.regular) := by
  have hend : add64 start bytes.length = start + bytes.length := add64_of_lt (by omega)
  cases harchive with
  | zeroBlock rest => exact tarCountFiles_zeroBlock h (by omega)
  | exact =>
    obtain ⟨fuel, hf⟩ := @exists_fuel start _ _ (@length_encodeEntries_ge es)
    unfold tarCountFiles
    dsimp only
    rw [hend, hf, countFiles_entries h le_rfl (by omega), Nat.zero_add]
    exact countFiles_behind (by omega) (by omega)
  | cut es e n hn =>
    obtain ⟨hentries, htail⟩ := shows_append.1 h
    have hheader := headerAt_of_shows (shows_append.1 htail).1
    have hpad : paddedSize e.size < 2 ^ 34 := paddedSize_lt
    have hdata := e.data_length
    have hge := @length_encodeEntries_ge es
    have hlen : (encodeEntries es ++ (e.header ++ e.data.take n)).length = (encodeEntries es).length + (512 + n) := by
      simp [hn]
    rw [hlen] at hbound hend ⊢
    obtain ⟨fuel, hf⟩ := @exists_fuel start (es.length + 1) ((encodeEntries es).length + (512 + n)) (by omega)
    unfold tarCountFiles
    dsimp only
    rw [hend, hf, Nat.add_assoc, countFiles_entries hentries (by omega) (by omega), Nat.zero_add, Nat.add_comm 1,
      countFiles_header hheader (by omega) (by omega), countFiles_behind (by omega) (by omega), List.countP_append,
      List.countP_singleton]

/-! ## Any bytes -/

/-- The number of characters bounds what is decoded. -/
theorem parseOctal_lt {length text value v : Nat} (h : parseOctal read length text value = .ok v) :
    v < (value + 1) * 8 ^ length := by
  have h0 : '0'.toNat = 48 := rfl
  have h7 : '7'.toNat = 55 := rfl
  induction length generalizing text value with
  | zero =>
    cases h
    omega
  | succ length ih =>
    obtain ⟨c, -, h⟩ := bind_eq_ok.1 h
    split_ifs at h with hdigit
    · refine (ih h).trans_le ?_
      rw [Nat.pow_succ', ← Nat.mul_assoc]
      exact Nat.mul_le_mul_right _ (by omega)
    · cases h
      have hpow : 0 < 8 ^ (length + 1) := Nat.pow_pos (by decide)
      nlinarith

/-- A number is decoded from any characters that can be read. -/
theorem exists_parseOctal {length text value : Nat} (h : ∀ x, text ≤ x → x < text + length → ∃ c, read x = .ok c)
    (ha : text + length < 2 ^ 64) : ∃ v, parseOctal read length text value = .ok v := by
  induction length generalizing text value with
  | zero => exact ⟨value, rfl⟩
  | succ length ih =>
    obtain ⟨c, hc⟩ := h text le_rfl (by omega)
    unfold parseOctal
    rw [hc, add64_of_lt (by omega)]
    by_cases hdigit : '0'.toNat ≤ c ∧ c ≤ '7'.toNat
    · obtain ⟨v, hv⟩ := @ih (text + 1) (value * 8 + (c - '0'.toNat)) (fun x h1 h2 => h x (by omega) (by omega))
        (by omega)
      exact ⟨v, (if_pos hdigit).trans hv⟩
    · exact ⟨value, if_neg hdigit⟩

/-- The walk over any bytes ends, and reads none outside of them. -/
theorem exists_countFiles (hbound : archiveEnd ≤ 2 ^ 62) (hpos : 0 < fuel) (hfuel : archiveEnd < a + 512 * fuel)
    (hstart : start ≤ a) (ha : a < 2 ^ 63) : ∃ r, countFiles (within m start archiveEnd) archiveEnd fuel a n = .ok r := by
  induction fuel generalizing a n with
  | zero => cases hpos
  | succ fuel ih =>
    have hread : ∀ x, a ≤ x → x < archiveEnd → within m start archiveEnd x = .ok (m x).toNat :=
      fun x h1 h2 => if_pos ⟨by omega, h2⟩
    have hname : offsetOf tarHeader 0 = 0 := rfl
    have hsize : offsetOf tarHeader 4 = 124 := rfl
    have htype : offsetOf tarHeader 7 = 156 := rfl
    unfold countFiles tarBlockSize
    rw [add64_of_lt (by omega)]
    by_cases hin : a + 512 ≤ archiveEnd
    · rw [if_pos hin, hname, hsize, htype, add64_of_lt (by omega), add64_of_lt (by omega), add64_of_lt (by omega),
        hread _ (by omega) (by omega), hread _ (by omega) (by omega)]
      by_cases hzero : (m (a + 0)).toNat = 0
      · exact ⟨n, if_pos hzero⟩
      · obtain ⟨v, hv⟩ := @exists_parseOctal (within m start archiveEnd) 12 (a + 124) 0
          (fun x h1 h2 => ⟨_, hread x (by omega) (by omega)⟩) (by omega)
        have hlt := parseOctal_lt hv
        rw [hv]
        -- the next header lies behind this one, and the size is too small to wrap around
        obtain ⟨r, hr⟩ := @ih (a + (512 + (v + 512 - 1) / 512 * 512))
          (if (m (a + 156)).toNat = '0'.toNat ∨ (m (a + 156)).toNat = 0 then n + 1 else n) (by omega) (by omega) (by omega)
          (by omega)
        refine ⟨r, (if_neg hzero).trans ?_⟩
        show countFiles _ _ _ (add64 a (512 + _)) _ = _
        rw [add64_of_lt (by omega)]
        exact hr
    · exact ⟨n, if_neg hin⟩

end

/-- Archives are counted right, and of any bytes none outside is read. -/
theorem tar_count_files_decodes :
    (∀ es bytes, Archive es bytes → ∀ (m : Mem) (start : Nat), start + bytes.length ≤ 2 ^ 62 →
      HoldsAt m start bytes →
        tarCountFiles (within m start (start + bytes.length)) start bytes.length = .ok (es.countP TarEntry.regular)) ∧
    ∀ (m : Mem) (start length : Nat), start + length ≤ 2 ^ 62 →
      ∃ count, tarCountFiles (within m start (start + length)) start length = .ok count := by
  refine ⟨fun es bytes harchive m start hbound h => tarCountFiles_archive harchive (shows_within h) hbound,
    fun m start length hbound => ?_⟩
  unfold tarCountFiles tarBlockSize
  dsimp only
  rw [add64_of_lt (by omega)]
  exact exists_countFiles hbound (by omega) (by omega) le_rfl (by omega)

/-- An empty regular file with a name of one character. -/
def emptyFile (c : BitVec 8) (hc : c ≠ 0) : TarEntry where
  name := [c]
  owner := .replicate 24 0
  size := 0
  sizeEnd := 0
  stamp := .replicate 20 0
  typeflag := BitVec.ofNat 8 '0'.toNat
  rest := .replicate 355 0
  data := []
  name_ne := by simp
  name_le := by simp
  name_text := by simpa using hc.symm
  size_lt := by decide
  data_length := rfl
  sizeEnd_eq := .inl rfl

/-- Two empty files. -/
def twoFiles : List TarEntry :=
  [emptyFile (BitVec.ofNat 8 'a'.toNat) (by decide), emptyFile (BitVec.ofNat 8 'b'.toNat) (by decide)]

/-- Their archive. -/
def twoFilesBytes : List (BitVec 8) := encodeEntries twoFiles ++ (List.replicate tarBlockSize 0 ++ [])

theorem tar_count_files_decodes_twoFiles :
    tarCountFiles (within (layBytes 0x100000 twoFilesBytes) 0x100000 (0x100000 + twoFilesBytes.length)) 0x100000
      twoFilesBytes.length = .ok 2 :=
  tar_count_files_decodes.1 twoFiles twoFilesBytes (.zeroBlock twoFiles []) _ _ (by decide +kernel) holdsAt_layBytes

end Icarus.Files
