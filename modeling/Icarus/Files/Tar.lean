/-
The archives of tar_parse.c: the two walks over them, and how their entries are written. The memory is read through what
reading a byte gives, so that a walk can be looked at that may read the archive only.
-/
import Icarus.Base.Bytes
import Icarus.Base.Layout
import Icarus.Base.Loop
import Icarus.Base.Word

namespace Icarus.Files

open Icarus.Base

/-- `struct tar_header`. -/
def tarHeader : List Member :=
  [.array 100 .u8, .array 8 .u8, .array 8 .u8, .array 8 .u8, .array 12 .u8, .array 12 .u8, .array 8 .u8, .array 1 .u8]

/-- `TAR_BLOCK_SIZE`. -/
def tarBlockSize : Nat := 512

/-- What reading the byte at an address gives. -/
abbrev Reads : Type := Nat → Except Fault Nat

/-- Only the bytes from `start` up to `stop` can be read. -/
def within (m : Mem) (start stop : Nat) : Reads := fun a =>
  if start ≤ a ∧ a < stop then .ok (m a).toNat else .error (.badAddress a)

/-! ## The walks -/

/-- `parse_octal` of the `length` characters at `text`. -/
def parseOctal (read : Reads) : (length text value : Nat) → Except Fault Nat
  | 0, _, value => .ok value
  | length + 1, text, value => do
    let c ← read text
    if '0'.toNat ≤ c ∧ c ≤ '7'.toNat then parseOctal read length (add64 text 1) (value * 8 + (c - '0'.toNat))
    else .ok value

/-- The loop of `tar_count_files`. -/
def countFiles (read : Reads) (archiveEnd : Nat) : (fuel cursor fileCount : Nat) → Except Fault Nat
  | 0, _, _ => .error .outOfFuel
  | fuel + 1, cursor, fileCount =>
    if add64 cursor tarBlockSize ≤ archiveEnd then do
      let filename ← read (add64 cursor (offsetOf tarHeader 0))
      if filename = 0 then .ok fileCount
      else do
        let fileSize ← parseOctal read 12 (add64 cursor (offsetOf tarHeader 4)) 0
        let typeflag ← read (add64 cursor (offsetOf tarHeader 7))
        let fileCount := if typeflag = '0'.toNat ∨ typeflag = 0 then fileCount + 1 else fileCount
        let dataBlocks := (fileSize + tarBlockSize - 1) / tarBlockSize
        countFiles read archiveEnd fuel (add64 cursor (tarBlockSize + dataBlocks * tarBlockSize)) fileCount
    else .ok fileCount

/-- `tar_count_files`. -/
def tarCountFiles (read : Reads) (archiveStart archiveLength : Nat) : Except Fault Nat :=
  let archiveEnd := add64 archiveStart archiveLength
  countFiles read archiveEnd (archiveEnd / tarBlockSize + 1) archiveStart 0

/-- The loop of `getsize`, over the characters in front of the `j`-th, the last of them first. -/
def getsizeLoop (read : Reads) (text : Nat) : (j : Nat) → (count size : BitVec 32) → Except Fault (BitVec 32)
  | 0, _, size => .ok size
  | j + 1, count, size => do
    let c ← read (add64 text j)
    -- a `char` is signed
    let digit := (BitVec.ofNat 8 c).signExtend 32 - BitVec.ofNat 32 '0'.toNat
    getsizeLoop read text j (count * 8) (size + digit * count)

/-- `getsize`. -/
def getsize (read : Reads) (text : Nat) : Except Fault (BitVec 32) := getsizeLoop read text 11 1 0

/-- What `parse` adds to the address behind a header of that size. -/
def parseStep (address : Nat) (size : BitVec 32) : Nat :=
  let address := add64 address ((size / 512 + 1) * 512).toNat
  if size % 512 ≠ 0 then add64 address 512 else address

/-- The loop of `parse`: `headers` is what has been stored so far. -/
def parseLoop (read : Reads) : (fuel i address : Nat) → (headers : Nat → Option Nat) →
    Except Fault (Nat × (Nat → Option Nat))
  | 0, _, _, _ => .error .outOfFuel
  | fuel + 1, i, address, headers => do
    let c ← read (add64 address (offsetOf tarHeader 0 + i))
    if c = 0 then return (i, headers)
    let size ← getsize read (add64 address (offsetOf tarHeader 4))
    parseLoop read fuel (u32 (i + 1)) (parseStep address size) (Function.update headers i (some address))

/-- `parse`, into headers of which none has been stored. -/
def parse (read : Reads) (fuel address : Nat) : Except Fault (Nat × (Nat → Option Nat)) :=
  parseLoop read fuel 0 address fun _ => none

/-! ## Entries -/

/-- How many bytes the blocks for `size` bytes have. -/
def paddedSize (size : Nat) : Nat := (size + 511) / 512 * 512

/-- An entry of an archive: the fields of its header in their order, and the data in whole blocks. -/
structure TarEntry where
  name : List (BitVec 8)
  owner : Vector (BitVec 8) 24
  size : Nat
  sizeEnd : BitVec 8
  stamp : Vector (BitVec 8) 20
  typeflag : BitVec 8
  rest : Vector (BitVec 8) 355
  data : List (BitVec 8)
  name_ne : name ≠ []
  name_le : name.length ≤ 100
  name_text : 0 ∉ name
  size_lt : size < 8 ^ 11
  data_length : data.length = paddedSize size
  sizeEnd_eq : sizeEnd = 0 ∨ sizeEnd = BitVec.ofNat 8 ' '.toNat

/-- A regular file, in one of the two ways to say so. -/
def TarEntry.regular (e : TarEntry) : Bool := e.typeflag == BitVec.ofNat 8 '0'.toNat || e.typeflag == 0

/-- The last `n` octal digits of a number. -/
def octalDigits : (n v : Nat) → List (BitVec 8)
  | 0, _ => []
  | n + 1, v => octalDigits n (v / 8) ++ [BitVec.ofNat 8 ('0'.toNat + v % 8)]

/-- The block of the header. -/
def TarEntry.header (e : TarEntry) : List (BitVec 8) :=
  e.name ++ (List.replicate (100 - e.name.length) 0 ++ (e.owner.toList ++ (octalDigits 11 e.size ++
    ([e.sizeEnd] ++ (e.stamp.toList ++ ([e.typeflag] ++ e.rest.toList))))))

/-- The header and the data. -/
def TarEntry.encode (e : TarEntry) : List (BitVec 8) := e.header ++ e.data

/-- The entries one after the other. -/
def encodeEntries (es : List TarEntry) : List (BitVec 8) := es.flatMap TarEntry.encode

/-- The bytes at `a` read as these. -/
def Shows (read : Reads) (a : Nat) (bytes : List (BitVec 8)) : Prop :=
  ∀ i b, bytes[i]? = some b → read (a + i) = .ok b.toNat

section
variable {read : Reads} {a b n v k value : Nat} {xs ys : List (BitVec 8)} {e : TarEntry} {es : List TarEntry}

@[simp] theorem length_octalDigits : (octalDigits n v).length = n := by
  induction n generalizing v with
  | zero => rfl
  | succ n ih => simp [octalDigits, ih]

@[simp] theorem length_header : e.header.length = 512 := by
  have hle := e.name_le
  simp only [TarEntry.header, List.length_append, List.length_replicate, Vector.length_toList, length_octalDigits,
    List.length_singleton]
  omega

@[simp] theorem length_encode : e.encode.length = 512 + paddedSize e.size := by
  simp [TarEntry.encode, e.data_length]

theorem length_encodeEntries_ge : 512 * es.length ≤ (encodeEntries es).length := by
  induction es with
  | nil => exact Nat.zero_le _
  | cons e es ih =>
    have hcons : (encodeEntries (e :: es)).length = 512 + paddedSize e.size + (encodeEntries es).length := by
      simp [encodeEntries]
    rw [hcons, List.length_cons]
    omega

theorem shows_append : Shows read a (xs ++ ys) ↔ Shows read a xs ∧ Shows read (a + xs.length) ys := by
  constructor
  · intro h
    refine ⟨fun i b hb => h i b ?_, fun i b hb => ?_⟩
    · rw [List.getElem?_append_left (List.getElem?_eq_some_iff.1 hb).1, hb]
    · rw [Nat.add_assoc]
      refine h _ b ?_
      rw [List.getElem?_append_right (Nat.le_add_right ..), Nat.add_sub_cancel_left, hb]
  · rintro ⟨h1, h2⟩ i b hb
    by_cases hi : i < xs.length
    · rw [List.getElem?_append_left hi] at hb
      exact h1 i b hb
    · rw [List.getElem?_append_right (by omega)] at hb
      have := h2 _ b hb
      rwa [Nat.add_assoc, Nat.add_sub_cancel' (by omega)] at this

theorem shows_singleton {c : BitVec 8} : Shows read a [c] ↔ read a = .ok c.toNat := by
  constructor
  · intro h
    exact h 0 c rfl
  · rintro h i b hb
    obtain ⟨hi, rfl⟩ := List.getElem?_eq_some_iff.1 hb
    obtain rfl : i = 0 := by simpa using hi
    exact h

/-- A character that is an octal digit. -/
theorem toNat_digit : (BitVec.ofNat 8 ('0'.toNat + v % 8)).toNat = '0'.toNat + v % 8 := by
  have : '0'.toNat = 48 := rfl
  rw [BitVec.toNat_ofNat, Nat.mod_eq_of_lt (by omega)]

/-- Written digits are read back. -/
theorem parseOctal_digits (h : Shows read a (octalDigits n v)) (hv : v < 8 ^ n) (ha : a + n < 2 ^ 64) :
    parseOctal read (n + k) a value = parseOctal read k (a + n) (value * 8 ^ n + v) := by
  induction n generalizing v k with
  | zero =>
    obtain rfl : v = 0 := by simpa using hv
    simp
  | succ n ih =>
    obtain ⟨hfront, hlast⟩ := shows_append.1 h
    rw [length_octalDigits, shows_singleton, toNat_digit] at hlast
    have hdiv : v / 8 < 8 ^ n := Nat.div_lt_of_lt_mul (by rw [← Nat.pow_succ']; exact hv)
    rw [show n + 1 + k = n + (k + 1) by omega, ih hfront hdiv (by omega)]
    conv_lhs => unfold parseOctal
    have h0 : '0'.toNat = 48 := rfl
    have h7 : '7'.toNat = 55 := rfl
    rw [hlast, add64_of_lt (by omega)]
    show (if _ then _ else _) = _
    rw [if_pos ⟨by omega, by omega⟩, Nat.add_sub_cancel_left, Nat.pow_succ, ← Nat.mul_assoc]
    congr 1
    omega

/-- A character that is no octal digit ends the number. -/
theorem parseOctal_end {c : BitVec 8} (h : read a = .ok c.toNat) (hc : c = 0 ∨ c = BitVec.ofNat 8 ' '.toNat) :
    parseOctal read (n + 1) a value = .ok value := by
  unfold parseOctal
  rw [h]
  show (if _ then _ else _) = _
  have hlt : ¬ '0'.toNat ≤ c.toNat := by
    rcases hc with rfl | rfl
    · decide
    · decide
  exact if_neg fun h => hlt h.1

/-- A digit as `getsize` takes it. -/
theorem signed_digit : (BitVec.ofNat 8 ('0'.toNat + v % 8)).signExtend 32 - BitVec.ofNat 32 '0'.toNat =
    BitVec.ofNat 32 (v % 8) := by
  have h : ∀ d < 8, (BitVec.ofNat 8 ('0'.toNat + d)).signExtend 32 - BitVec.ofNat 32 '0'.toNat = BitVec.ofNat 32 d := by
    decide
  exact h _ (Nat.mod_lt _ (by decide))

/-- Read from the last digit on, the number is the same, in 32 bits. -/
theorem getsizeLoop_digits {count size : BitVec 32} (h : Shows read a (octalDigits n v)) (hv : v < 8 ^ n)
    (ha : a + n < 2 ^ 64) : getsizeLoop read a n count size = .ok (size + count * BitVec.ofNat 32 v) := by
  induction n generalizing v count size with
  | zero =>
    obtain rfl : v = 0 := by simpa using hv
    simp [getsizeLoop]
  | succ n ih =>
    obtain ⟨hfront, hlast⟩ := shows_append.1 h
    rw [length_octalDigits, shows_singleton] at hlast
    have hdiv : v / 8 < 8 ^ n := Nat.div_lt_of_lt_mul (by rw [← Nat.pow_succ']; exact hv)
    unfold getsizeLoop
    rw [add64_of_lt (by omega), hlast]
    show getsizeLoop read a n (count * 8) _ = _
    rw [BitVec.ofNat_toNat, BitVec.setWidth_eq, signed_digit, ih hfront hdiv (by omega)]
    congr 1
    -- the digits in front count eight times as much
    have hsplit : BitVec.ofNat 32 v = BitVec.ofNat 32 (v % 8) + 8 * BitVec.ofNat 32 (v / 8) := by
      conv_lhs => rw [← Nat.mod_add_div v 8, BitVec.ofNat_add, BitVec.ofNat_mul]
      rfl
    rw [hsplit, BitVec.mul_add, BitVec.add_assoc, BitVec.mul_assoc, BitVec.mul_comm (BitVec.ofNat 32 (v % 8))]

/-- What the walks read of the header. -/
structure HeaderAt (read : Reads) (a : Nat) (e : TarEntry) : Prop where
  name : ∃ c, c ≠ 0 ∧ read a = .ok c
  size : Shows read (a + offsetOf tarHeader 4) (octalDigits 11 e.size)
  sizeEnd : read (a + offsetOf tarHeader 4 + 11) = .ok e.sizeEnd.toNat
  typeflag : read (a + offsetOf tarHeader 7) = .ok e.typeflag.toNat

theorem headerAt_of_shows (h : Shows read a e.header) : HeaderAt read a e := by
  have hle := e.name_le
  unfold TarEntry.header at h
  simp only [shows_append, List.length_replicate, Vector.length_toList, length_octalDigits, List.length_singleton,
    shows_singleton] at h
  obtain ⟨hname, -, -, hsize, hend, -, htype, -⟩ := h
  have hoff : a + e.name.length + (100 - e.name.length) = a + 100 := by omega
  rw [hoff] at hsize hend htype
  refine ⟨?_, hsize, hend, htype⟩
  obtain ⟨c, name, hcons⟩ := List.exists_cons_of_ne_nil e.name_ne
  refine ⟨c.toNat, fun hzero => ?_, hname 0 c (by rw [hcons]; rfl)⟩
  have hc : c = 0 := BitVec.eq_of_toNat_eq hzero
  exact e.name_text (by rw [hcons, hc]; exact List.mem_cons_self ..)

/-- `tar_count_files` decodes the size of an entry. -/
theorem HeaderAt.parseOctal (h : HeaderAt read a e) (ha : a + 512 < 2 ^ 64) :
    parseOctal read 12 (add64 a (offsetOf tarHeader 4)) 0 = .ok e.size := by
  have hoff : offsetOf tarHeader 4 = 124 := rfl
  have hend := h.sizeEnd
  rw [add64_of_lt (by omega), show 12 = 11 + 1 from rfl, parseOctal_digits h.size e.size_lt (by omega),
    parseOctal_end hend e.sizeEnd_eq, Nat.zero_mul, Nat.zero_add]

/-- `parse` decodes it as well, in 32 bits. -/
theorem HeaderAt.getsize (h : HeaderAt read a e) (ha : a + 512 < 2 ^ 64) :
    getsize read (add64 a (offsetOf tarHeader 4)) = .ok (BitVec.ofNat 32 e.size) := by
  have hoff : offsetOf tarHeader 4 = 124 := rfl
  unfold Files.getsize
  rw [add64_of_lt (by omega), getsizeLoop_digits h.size e.size_lt (by omega)]
  simp

end

end Icarus.Files
