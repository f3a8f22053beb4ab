/-
The boot information (multiboot2.c, tar_parse.c): the loop of `handle_multiboot2` over the tags and what its branches
read of them, and the loop of `handle_mb2_mmap` over the entries of the memory map.
-/
import Icarus.Acpi.RootWalk
import Icarus.Base.Traces
import Icarus.Files.Tar
import Icarus.Memory.Paging
import Icarus.Memory.MemMapTag

namespace Icarus.Boot

open Icarus.Base Icarus.Memory
open Icarus.Acpi (rsdpMembers xsdpMembers)
open Icarus.Files (tarCountFiles)

/-- A call of the kernel heap. -/
inductive HeapCall
  | imalloc (size : Nat)
  | icalloc (units unitSize : Nat)
  | free (addr : Nat)
  deriving DecidableEq, Repr

/-- What a run at boot does: it reads a byte of the boot information, calls the heap, or comes back from `alloc_init`. -/
inductive BootEvent
  | read (a : Nat)
  | heap (call : HeapCall)
  | allocInit
  deriving DecidableEq, Repr

/-! ## Memory -/

/-- The tables of boot.asm map the byte at `a`: two entries of `pml4` lead to `pdpt`, two entries of that to `pd`, and 20
entries of that are present. -/
def BootMapped (a : Nat) : Prop :=
  (a < 2 ^ 47 ∨ 2 ^ 64 - 2 ^ 47 ≤ a ∧ a < 2 ^ 64) ∧ (vaPml4Index a = 0 ∨ vaPml4Index a = 511) ∧
    (vaPdptIndex a = 0 ∨ vaPdptIndex a = 510) ∧ vaPdIndex a < 20

instance (a : Nat) : Decidable (BootMapped a) := inferInstanceAs (Decidable (_ ∧ _))

/-- Where the memory that boot.asm maps to itself ends. -/
def bootMappedEnd : Nat := 20 * 0x200000

/-- A byte of the memory at `a`. -/
def byteAt (m : Mem) (a : Nat) : Except Fault Nat := if BootMapped a then .ok (m a).toNat else .error (.badAddress a)

/-- `n` bytes of the boot information are read. -/
def readBytes (a n : Nat) : Run BootEvent Unit :=
  ⟨(List.range' a n).map .read, if ∀ x ∈ List.range' a n, BootMapped x then .ok () else .error (.badAddress a)⟩

/-! ## Tags -/

/-- The types of tags that `handle_multiboot2` tells apart. -/
inductive TagKind
  | endTag | cmdline | bootLoaderName | moduleTag | basicMeminfo | bootdev | mmap | acpiOld | acpiNew | other
  deriving DecidableEq, Repr

/-- `MULTIBOOT_TAG_TYPE_*`. -/
def TagKind.ofType : Nat → TagKind
  | 0 => endTag
  | 1 => cmdline
  | 2 => bootLoaderName
  | 3 => moduleTag
  | 4 => basicMeminfo
  | 5 => bootdev
  | 6 => mmap
  | 14 => acpiOld
  | 15 => acpiNew
  | _ => other

/-- `MULTIBOOT2_BOOTLOADER_MAGIC`. -/
def multiboot2BootloaderMagic : BitVec 32 := 0x36d76289

/-- `struct multiboot_tag`. -/
def multibootTag : List Member := [.u32, .u32]

/-- `struct multiboot_tag_string`. -/
def multibootTagString : List Member := [.u32, .u32, .array 0 .u8]

/-- `struct multiboot_tag_module`. -/
def multibootTagModule : List Member := [.u32, .u32, .u32, .u32, .array 0 .u8]

/-- `tag->type`. -/
def tagKind (m : Mem) (tag : Nat) : TagKind := .ofType (m.load (tag + offsetOf multibootTag 0) 4).toNat

/-- `(tag->size + 7) & ~7`, of 32 bits. -/
def tagStride (m : Mem) (tag : Nat) : Nat := ((m.load (tag + offsetOf multibootTag 1) 4 + 7#32) &&& ~~~7#32).toNat

/-- The tag behind the one at `tag`. -/
def nextTag (m : Mem) (tag : Nat) : Nat := add64 tag (tagStride m tag)

/-- A round of `write_str`. -/
def charRound (m : Mem) (_fuel a : Nat) : Run BootEvent (Option Nat) := do
  readBytes a 1
  return if m a = 0 then none else some (add64 a 1)

/-- `write_str` of a string in the boot information, up to its terminator; what it writes to the screen is left out. -/
def writeStr (m : Mem) (fuel a : Nat) : Run BootEvent Nat := .loop (charRound m) fuel a

/-! ## Modules -/

/-- `KERNEL_HEAP_ADDR`. -/
def kernelHeapAddr : Nat := 0xFFFFFF0000000000

/-- `mod_start`. -/
def modStart (m : Mem) (tag : Nat) : Nat := (m.load (tag + offsetOf multibootTagModule 2) 4).toNat

/-- `mod_end`. -/
def modEnd (m : Mem) (tag : Nat) : Nat := (m.load (tag + offsetOf multibootTagModule 3) 4).toNat

/-- `tar_mb2_init`. The first thing `Imalloc` reads is the allocator at `KERNEL_HEAP_ADDR`, which boot.asm does not map:
the page fault does not come back. -/
def tarMb2Init (m : Mem) (tag : Nat) : Run BootEvent Int := do
  readBytes (tag + offsetOf multibootTagModule 2) 8
  match tarCountFiles (byteAt m) (modStart m tag) (sub64 (modEnd m tag) (modStart m tag)) with
  | .error e => .fault e
  | .ok count =>
    .emit [.heap (.imalloc (u64 (8 * count)))]
    .fault (.badAddress kernelHeapAddr)

/-! ## The loop over the tags -/

/-- The `switch` of `handle_multiboot2`; `mmap` is the tag of the memory map seen last. -/
def handleTag (m : Mem) (fuel tag : Nat) (mmap : Option Nat) : Run BootEvent (Option Nat) :=
  match tagKind m tag with
  | .cmdline | .bootLoaderName => do
    let _ ← writeStr m fuel (add64 tag (offsetOf multibootTagString 2))
    return mmap
  | .moduleTag => do
    readBytes (tag + offsetOf multibootTagModule 2) 8
    let _ ← writeStr m fuel (add64 tag (offsetOf multibootTagModule 4))
    let _ ← tarMb2Init m tag
    return mmap
  | .basicMeminfo => do
    readBytes (tag + sizeOfStruct multibootTag) 8
    return mmap
  | .bootdev => do
    readBytes (tag + sizeOfStruct multibootTag) 12
    return mmap
  | .mmap => return some tag
  | .acpiOld => do
    readBytes (tag + sizeOfStruct multibootTag) (sizeOfStruct rsdpMembers)
    return mmap
  | .acpiNew => do
    readBytes (tag + sizeOfStruct multibootTag) (sizeOfStruct xsdpMembers)
    return mmap
  | .endTag | .other => return mmap

/-- A round of the loop: from a tag to the next, with the memory map seen so far. -/
def tagRound (m : Mem) (fuel : Nat) (s : Nat × Option Nat) : Run BootEvent (Option (Nat × Option Nat)) := do
  readBytes (s.1 + offsetOf multibootTag 0) 4
  if tagKind m s.1 = .endTag then return none
  let mmap ← handleTag m fuel s.1 s.2
  readBytes (s.1 + offsetOf multibootTag 1) 4
  return some (nextTag m s.1, mmap)

/-- The loop of `handle_multiboot2`: the end tag and the memory map seen last. -/
def tagLoop (m : Mem) (fuel tag : Nat) : Run BootEvent (Nat × Option Nat) := .loop (tagRound m) fuel (tag, none)

/-! ## The loop over the memory map -/

/-- A round of the loop of `handle_mb2_mmap`, from the memory as it is and the entry it is at. What it makes of the entry,
`intakeEntry` says: it is stored to the memory that the tag is read from. -/
def entryRound (image : KernelImage) (tag _fuel : Nat) (s : Mem × Nat) : Run BootEvent (Option (Mem × Nat)) := do
  readBytes (tag + offsetOf multibootTagMmap 1) 4
  if s.2 < add64 tag (mmapTagSize s.1 tag) then
    readBytes s.2 20
    let m ← .quiet (intakeEntry image.mapAddr s.2 s.1).result
    readBytes (tag + offsetOf multibootTagMmap 2) 4
    return some (m, add64 s.2 (mmapEntrySize m tag))
  else return none

/-- `handle_mb2_mmap` up to the end of its loop. -/
def entryLoop (image : KernelImage) (tag : Nat) (m : Mem) (fuel : Nat) : Run BootEvent (Mem × Nat) :=
  .loop (entryRound image tag) fuel (startMap image.mapAddr m, add64 tag (offsetOf multibootTagMmap 4))

/-! ## The whole -/

/-- What the boot is run with: what the boot loader passes, the memory at that time, and where the kernel lies. -/
structure BootState where
  magic : BitVec 32
  addr : Nat
  mem : Mem
  image : KernelImage
  pml4 : Nat

/-- `handle_multiboot2`. -/
def handleMultiboot2 (s : BootState) (fuel : Nat) : Run BootEvent Int := do
  if s.magic ≠ multiboot2BootloaderMagic then return -1
  if s.addr &&& 7 ≠ 0 then return -1
  readBytes s.addr 4
  let (tag, mmap) ← tagLoop s.mem fuel (add64 s.addr 8)
  readBytes (tag + offsetOf multibootTag 1) 4
  match mmap with
  | none => return -1
  | some mmap =>
    let (m, _) ← entryLoop s.image mmap s.mem fuel
    let (err, _, _) ← .quiet (reserveAndMap fuel s.image s.pml4 m)
    return if err ≠ 0 then -1 else 0

/-- `kmain`, with whether `alloc_init` returns and what comes behind it. What comes before `handle_multiboot2`, and between
it and `alloc_init`, calls nothing of the heap. -/
def kmain (s : BootState) (initReturns : Bool) (later : Run BootEvent Unit) (fuel : Nat) : Run BootEvent Unit := do
  let err ← handleMultiboot2 s fuel
  if err ≠ 0 then .fault .stopped
  else if initReturns then
    .emit [.allocInit]
    later
  else .fault .stopped

end Icarus.Boot
