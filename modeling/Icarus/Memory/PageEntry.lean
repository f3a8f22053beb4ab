/-
Entries of the four levels of page tables (page_definitions.h) and the permission bits with which
they are written (memory_mapping.h).
-/
import Icarus.Base.Bits
import Icarus.Base.Bytes
import Icarus.Base.Word

namespace Icarus.Memory

open Icarus.Base

/-- An entry of any level. -/
abbrev Entry : Type := BitVec 64

namespace Entry

/-- `present`. -/
def present (e : Entry) : Bool := e.getLsbD 0

/-- `writeable`. -/
def writeable (e : Entry) : Bool := e.getLsbD 1

/-- `user_access`. -/
def userAccess (e : Entry) : Bool := e.getLsbD 2

/-- `write_through`. -/
def writeThrough (e : Entry) : Bool := e.getLsbD 3

/-- `cache_disabled`. -/
def cacheDisabled (e : Entry) : Bool := e.getLsbD 4

/-- `huge` of the middle levels. -/
def huge (e : Entry) : Bool := e.getLsbD 7

/-- `page_ppn`, 28 bits. -/
def pagePpn (e : Entry) : Nat := (e.extractLsb' 12 28).toNat

/-- `reserved_1`. -/
def reserved (e : Entry) : BitVec 12 := e.extractLsb' 40 12

/-- `execution_disabled`. -/
def executionDisabled (e : Entry) : Bool := e.getLsbD 63

/-- `present = b`. -/
def setPresent (e : Entry) (b : Bool) : Entry := setBit e 0 b

/-- `writeable = b`. -/
def setWriteable (e : Entry) (b : Bool) : Entry := setBit e 1 b

/-- `user_access = b`. -/
def setUserAccess (e : Entry) (b : Bool) : Entry := setBit e 2 b

/-- `write_through = b`. -/
def setWriteThrough (e : Entry) (b : Bool) : Entry := setBit e 3 b

/-- `cache_disabled = b`. -/
def setCacheDisabled (e : Entry) (b : Bool) : Entry := setBit e 4 b

/-- `accessed = b`. -/
def setAccessed (e : Entry) (b : Bool) : Entry := setBit e 5 b

/-- `dirty = b`. -/
def setDirty (e : Entry) (b : Bool) : Entry := setBit e 6 b

/-- `huge = b`. -/
def setHuge (e : Entry) (b : Bool) : Entry := setBit e 7 b

/-- `execution_disabled = b`. -/
def setExecutionDisabled (e : Entry) (b : Bool) : Entry := setBit e 63 b

/-- `page_ppn = ppn`, cut to 28 bits. -/
def setPagePpn (e : Entry) (ppn : Nat) : Entry :=
  (e.extractLsb' 40 24 ++ (BitVec.ofNat 28 ppn ++ e.extractLsb' 0 12 : BitVec 40) : BitVec 64)

/-- `page_ppn << 12` in C: the bit field promotes to `int`, so the result is cut to 32 bits and extended
with its sign. -/
def tableAddr (e : Entry) : Nat :=
  let x := u32 (e.pagePpn * 4096)
  if x < 2 ^ 31 then x else x + (2 ^ 64 - 2 ^ 32)

/-- The frame an entry points to as the MMU reads it, with the address bits 12 to 51. -/
def frame (e : Entry) : Nat := (e.extractLsb' 12 40).toNat * 4096

end Entry

/-! ## Permissions -/

/-- `PERM_BIT`. -/
def permBit (p shift : Nat) : Bool := (p >>> shift) &&& 1 = 1

/-- `WRITEABLE_SHIFT`. -/
def writeableShift : Nat := 0x1

/-- `USER_ACCESS_SHIFT`. -/
def userAccessShift : Nat := 0x3

/-- `WRITE_THROUGH_SHIFT`. -/
def writeThroughShift : Nat := 0x7

/-- `CACHE_DISABLED_SHIFT`. -/
def cacheDisabledShift : Nat := 0xF

/-- `EXECUTION_DISABLED_SHIFT`. -/
def executionDisabledShift : Nat := 0x3F

/-- `APPLY_UPPER_PERMS`. -/
def applyUpperPerms (p : Nat) (e : Entry) : Entry :=
  let e := if permBit p userAccessShift then e.setUserAccess true else e
  if permBit p writeableShift then e.setWriteable true else e

/-- `APPLY_LEAF_PERMS`. -/
def applyLeafPerms (p : Nat) (e : Entry) : Entry :=
  let e := e.setUserAccess (permBit p userAccessShift)
  let e := e.setWriteable (permBit p writeableShift)
  let e := e.setWriteThrough (permBit p writeThroughShift)
  let e := e.setCacheDisabled (permBit p cacheDisabledShift)
  e.setExecutionDisabled (permBit p executionDisabledShift)

/-! ## Fields of written entries -/

namespace Entry

variable (e : Entry) (ppn : Nat)

theorem getLsbD_setPagePpn_of_not {j : Nat} (h : j < 12 ∨ 40 ≤ j) : (e.setPagePpn ppn).getLsbD j = e.getLsbD j := by
  unfold setPagePpn
  rw [BitVec.getLsbD_append]
  rcases h with h | h
  · rw [if_pos (by omega), BitVec.getLsbD_append, if_pos h, BitVec.getLsbD_extractLsb']
    simp [h]
  · rw [if_neg (by omega), BitVec.getLsbD_extractLsb', show 40 + (j - 40) = j by omega]
    by_cases hj : j < 64
    · simp [show j - 40 < 24 by omega]
    · rw [BitVec.getLsbD_of_ge _ _ (by omega), Bool.and_false]

theorem extractLsb'_setPagePpn : (e.setPagePpn ppn).extractLsb' 12 28 = BitVec.ofNat 28 ppn := by
  apply BitVec.eq_of_getLsbD_eq
  intro j hj
  unfold setPagePpn
  rw [BitVec.getLsbD_extractLsb', BitVec.getLsbD_append, if_pos (by omega), BitVec.getLsbD_append,
    if_neg (by omega), Nat.add_sub_cancel_left]
  simp [hj]

theorem pagePpn_setPagePpn {ppn : Nat} (h : ppn < 2 ^ 28) : (e.setPagePpn ppn).pagePpn = ppn := by
  unfold pagePpn
  rw [extractLsb'_setPagePpn, BitVec.toNat_ofNat, Nat.mod_eq_of_lt h]

theorem reserved_setPagePpn : (e.setPagePpn ppn).reserved = e.reserved := by
  unfold reserved
  apply BitVec.eq_of_getLsbD_eq
  intro j hj
  rw [BitVec.getLsbD_extractLsb', BitVec.getLsbD_extractLsb', getLsbD_setPagePpn_of_not _ _ (by omega)]

/-- With the reserved bits 0 the MMU reads the page number the code reads. -/
theorem frame_eq {e : Entry} (h : e.reserved = 0) : e.frame = e.pagePpn * 4096 := by
  unfold frame
  rw [toNat_extractLsb'_add e 12 28 12]
  have h' : (e.extractLsb' 40 12).toNat = 0 := by
    show e.reserved.toNat = 0
    rw [h]
    rfl
  rw [h']
  unfold pagePpn
  omega

/-- Below 2 GiB the shift loses nothing. -/
theorem tableAddr_eq {e : Entry} (h : e.pagePpn < 2 ^ 19) : e.tableAddr = e.pagePpn * 4096 := by
  unfold tableAddr
  rw [u32_of_lt (by omega)]
  exact if_pos (by omega)

end Entry

end Icarus.Memory
