/-
Where the compiler puts the members of a C structure: each at the next multiple of its alignment, in a
packed structure right behind the one before.
-/
import Mathlib.Tactic

namespace Icarus.Base

/-- A member of a structure, by its size and its alignment. -/
structure Member where
  size : Nat
  align : Nat
  deriving DecidableEq, Repr

/-- The least multiple of `a` that is not below `x`. -/
def roundUp (x a : Nat) : Nat := (x + (a - 1)) / a * a

/-- The offsets of the members, `x` being the first free byte. -/
def offsetsFrom : Nat → List Member → List Nat
  | _, [] => []
  | x, m :: ms => roundUp x m.align :: offsetsFrom (roundUp x m.align + m.size) ms

/-- The first byte behind the members. -/
def endFrom : Nat → List Member → Nat
  | x, [] => x
  | x, m :: ms => endFrom (roundUp x m.align + m.size) ms

/-- The alignment of a structure is that of its strictest member. -/
def alignOf : List Member → Nat
  | [] => 1
  | m :: ms => max m.align (alignOf ms)

/-- `offsetof` of member number `i`. -/
def offsetOf (ms : List Member) (i : Nat) : Nat := (offsetsFrom 0 ms).getD i 0

/-- `sizeof`. -/
def sizeOfStruct (ms : List Member) : Nat := roundUp (endFrom 0 ms) (alignOf ms)

/-- `__attribute__((packed))`. -/
def packed (ms : List Member) : List Member := ms.map fun m => { m with align := 1 }

namespace Member

/-- `uint8_t`. -/
def u8 : Member := ⟨1, 1⟩

/-- `uint16_t`. -/
def u16 : Member := ⟨2, 2⟩

/-- `uint32_t`. -/
def u32 : Member := ⟨4, 4⟩

/-- `uint64_t`. -/
def u64 : Member := ⟨8, 8⟩

/-- An array; a flexible array member has no elements. -/
def array (n : Nat) (m : Member) : Member := ⟨n * m.size, m.align⟩

/-- A structure inside a structure. -/
def struct (ms : List Member) : Member := ⟨sizeOfStruct ms, alignOf ms⟩

end Member

end Icarus.Base
