/-
The blocks of the heap between two addresses, and what is left of them and of the header behind them when one is marked,
written into, taken whole or cut.
-/
import Icarus.Base.Tiling
import Icarus.Memory.Heap

namespace Icarus.Memory

open Icarus.Base

/-- Blocks of multiples of 16 bytes tile the range, and there is room in the address space for a header behind them. -/
structure Blocks (m : Mem) (start stop : Nat) (bs : List Nat) : Prop where
  tiled : Tiled (blockSize m) start bs stop
  sizes : ∀ b ∈ bs, blockSize m b % 16 = 0
  bound : stop + 16 < 2 ^ 64

/-- The block at `a` is taken whole, or cut. -/
def Heap.take (h : Heap) (size a : Nat) : Heap :=
  { h with mem := if blockSize h.mem a = size then setAllocated h.mem a true else splitBlock h.mem a size }

section
variable {m m' : Mem} {start stop size a b c x : Nat} {bs : List Nat}

theorem Blocks.size_ge (hs : Blocks m start stop bs) (hb : b ∈ bs) : 16 ≤ blockSize m b := by
  have := hs.tiled.size_pos hb
  have := hs.sizes b hb
  omega

theorem Blocks.congr (hs : Blocks m start stop bs) (h : ∀ b ∈ bs, blockSize m' b = blockSize m b) :
    Blocks m' start stop bs := by
  refine ⟨hs.tiled.congr h, fun b hb => ?_, hs.bound⟩
  rw [h b hb]
  exact hs.sizes b hb

/-- The headers of the other blocks and the one behind them lie outside a block. -/
theorem Blocks.header_outside (hs : Blocks m start stop bs) (hb : b ∈ bs) (hc : c ∈ bs ∨ c = stop) (hne : c ≠ b) :
    c + 16 ≤ b ∨ b + blockSize m b ≤ c := by
  rcases hc with hc | rfl
  · have hge := hs.size_ge hc
    rcases hs.tiled.apart hc hb hne with h | h
    · left; omega
    · right; omega
  · exact .inr (hs.tiled.bounds hb).2

/-- No header lies in the payload of a block. -/
theorem Blocks.payload_outside (hs : Blocks m start stop bs) (hb : b ∈ bs) (hc : c ∈ bs ∨ c = stop) (h1 : c ≤ x)
    (h2 : x < c + 16) : x < b + 16 ∨ b + blockSize m b ≤ x := by
  by_cases hne : c = b
  · left; omega
  · rcases hs.header_outside hb hc hne with h | h
    · left; omega
    · right; omega

/-- Writing into one block leaves the other headers as they are. -/
theorem Blocks.other (hs : Blocks m start stop bs) (hb : b ∈ bs)
    (hm : ∀ x, x < b ∨ b + blockSize m b ≤ x → m' x = m x) (hc : c ∈ bs ∨ c = stop) (hne : c ≠ b) :
    SameFields m m' c ∧ prevBlockData m' c = prevBlockData m c := by
  have hsame : ∀ x, c ≤ x → x < c + 16 → m' x = m x := by
    intro x h1 h2
    refine hm x ?_
    rcases hs.header_outside hb hc hne with h | h
    · left; omega
    · right; omega
  refine ⟨Mem.load_congr fun x h1 h2 => hsame x h1 (by omega), congrArg BitVec.toNat ?_⟩
  exact Mem.load_congr fun x h1 h2 => hsame x (by omega) (by omega)

/-- Writing into the payload of a block writes into no header. -/
theorem Blocks.write (hs : Blocks m start stop bs) (hb : b ∈ bs)
    (hm : ∀ x, x < b + 16 ∨ b + blockSize m b ≤ x → m' x = m x) :
    ∀ c ∈ bs, SameFields m m' c ∧ prevBlockData m' c = prevBlockData m c := by
  intro c hc
  have hsame : ∀ x, c ≤ x → x < c + 16 → m' x = m x := fun x h1 h2 => hm x (hs.payload_outside hb (.inl hc) h1 h2)
  refine ⟨Mem.load_congr fun x h1 h2 => hsame x h1 (by omega), congrArg BitVec.toNat ?_⟩
  exact Mem.load_congr fun x h1 h2 => hsame x (by omega) (by omega)

/-! ## Marks -/

theorem storeFields_of_lt {v : Bool} {n : Nat} (h : x < a ∨ a + 8 ≤ x) : storeFields m a v n x = m x :=
  Mem.store_of_lt h

theorem Blocks.mark_of_outside (hs : Blocks m start stop bs) (hb : b ∈ bs) (v : Bool)
    (hx : x < b ∨ b + blockSize m b ≤ x) : setAllocated m b v x = m x := by
  have hge := hs.size_ge hb
  exact storeFields_of_lt (by omega)

/-- Changing the mark of a block changes no size. -/
theorem Blocks.mark (hs : Blocks m start stop bs) (hb : b ∈ bs) (v : Bool) :
    Blocks (setAllocated m b v) start stop bs := by
  refine hs.congr fun c hc => ?_
  by_cases hne : c = b
  · rw [hne, blockSize_setAllocated]
  · exact (hs.other hb (fun x => hs.mark_of_outside hb v) (.inl hc) hne).1.blockSize

/-! ## The block that is taken -/

/-- A cut writes the first quadword of the header, and the header behind it. -/
theorem splitBlock_of_lt (h1 : x < a ∨ a + 8 ≤ x) (h2 : x < add64 a size ∨ add64 a size + 16 ≤ x) :
    splitBlock m a size x = m x := by
  have hprev : ∀ m' : Mem, setPrevBlockData m' (add64 a size) size x = m' x := fun m' => Mem.store_of_lt (by omega)
  dsimp only [splitBlock]
  unfold setBlockSize setAllocated
  rw [storeFields_of_lt h1, storeFields_of_lt h1, hprev, storeFields_of_lt (by omega), storeFields_of_lt (by omega)]

end

section
variable {h : Heap} {start stop size a b c x : Nat} {bs : List Nat}

theorem take_self (hle : size ≤ blockSize h.mem a) :
    blockSize (h.take size a).mem a = size ∧ allocated (h.take size a).mem a = true := by
  unfold Heap.take
  split_ifs with heq
  · exact ⟨(blockSize_setAllocated ..).trans heq, allocated_setAllocated ..⟩
  · exact splitBlock_self (by omega)

theorem take_of_lt (h1 : x < a ∨ a + 8 ≤ x)
    (h2 : size ≠ blockSize h.mem a → x < add64 a size ∨ add64 a size + 16 ≤ x) : (h.take size a).mem x = h.mem x := by
  unfold Heap.take
  split_ifs with heq
  · exact storeFields_of_lt h1
  · exact splitBlock_of_lt h1 (h2 (Ne.symm heq))

/-- Taking a block writes into this block only. -/
theorem Blocks.take_of_outside (hs : Blocks h.mem start stop bs) (hb : b ∈ bs) (hal : size % 16 = 0)
    (hle : size ≤ blockSize h.mem b) (hx : x < b ∨ b + blockSize h.mem b ≤ x) : (h.take size b).mem x = h.mem x := by
  have hge := hs.size_ge hb
  have hsize := hs.sizes b hb
  have hend := (hs.tiled.bounds hb).2
  have hbound := hs.bound
  refine take_of_lt (by omega) fun hne => ?_
  rw [add64_of_lt (by omega)]
  omega

/-- The other headers stay as they are. -/
theorem Blocks.take_other (hs : Blocks h.mem start stop bs) (hb : b ∈ bs) (hal : size % 16 = 0)
    (hle : size ≤ blockSize h.mem b) (hc : c ∈ bs ∨ c = stop) (hne : c ≠ b) :
    SameFields h.mem (h.take size b).mem c ∧ prevBlockData (h.take size b).mem c = prevBlockData h.mem c :=
  hs.other hb (fun _ hx => hs.take_of_outside hb hal hle hx) hc hne

/-- A block that is taken whole. -/
theorem Blocks.takeWhole (hs : Blocks h.mem start stop bs) (hb : b ∈ bs) (heq : blockSize h.mem b = size) :
    Blocks (h.take size b).mem start stop bs := by
  unfold Heap.take
  rw [if_pos heq]
  exact hs.mark hb true

/-- The rest behind a block that is cut. -/
theorem Blocks.take_next (hs : Blocks h.mem start stop bs) (hb : b ∈ bs) (h16 : 16 ≤ size)
    (hlt : size < blockSize h.mem b) : blockSize (h.take size b).mem (b + size) = blockSize h.mem b - size ∧
      allocated (h.take size b).mem (b + size) = false := by
  have hend := (hs.tiled.bounds hb).2
  have hbound := hs.bound
  unfold Heap.take
  rw [if_neg hlt.ne']
  exact splitBlock_next h16 hlt (by omega)

/-- The link of the block stays, and the rest behind a cut names what was cut off. -/
theorem Blocks.take_links (hs : Blocks h.mem start stop bs) (hb : b ∈ bs) (h16 : 16 ≤ size)
    (hle : size ≤ blockSize h.mem b) : prevBlockData (h.take size b).mem b = prevBlockData h.mem b ∧
      (size < blockSize h.mem b → prevBlockData (h.take size b).mem (b + size) = size) := by
  have hend := (hs.tiled.bounds hb).2
  have hbound := hs.bound
  constructor
  · refine congrArg BitVec.toNat (Mem.load_congr fun y h1 h2 => take_of_lt (.inr h1) fun _ => .inl ?_)
    rw [add64_of_lt (by omega)]
    omega
  · intro hlt
    unfold Heap.take
    rw [if_neg hlt.ne']
    dsimp only [splitBlock]
    rw [add64_of_lt (by omega)]
    -- the last two writes are in front of the new header
    have hlast : ∀ m' : Mem, prevBlockData (setBlockSize (setAllocated m' b true) b size) (b + size) =
        prevBlockData m' (b + size) := fun m' =>
      congrArg BitVec.toNat ((Mem.load64_store64_disjoint _ (by omega)).trans (Mem.load64_store64_disjoint m' (by omega)))
    rw [hlast]
    unfold prevBlockData setPrevBlockData
    rw [Mem.load64_store64_same, BitVec.toNat_ofNat, Nat.mod_eq_of_lt (by omega)]

/-- A block that is cut: the rest is a free block of its own. -/
theorem Blocks.takeCut {pre post : List Nat} (hs : Blocks h.mem start stop (pre ++ b :: post)) (hal : size % 16 = 0)
    (h16 : 16 ≤ size) (hlt : size < blockSize h.mem b) :
    Blocks (h.take size b).mem start stop (pre ++ b :: (b + size) :: post) := by
  have hb : b ∈ pre ++ b :: post := by simp
  have hself : blockSize (h.take size b).mem b = size ∧ allocated (h.take size b).mem b = true := take_self hlt.le
  have hnext := hs.take_next hb h16 hlt
  have hother : ∀ x ∈ pre ++ post, x ∈ pre ++ b :: post ∧ blockSize (h.take size b).mem x = blockSize h.mem x := by
    intro x hx
    obtain ⟨hx', hne⟩ := hs.tiled.beside hx
    exact ⟨hx', (hs.take_other hb hal hlt.le (.inl hx') hne).1.blockSize⟩
  refine ⟨hs.tiled.split (by omega) hlt hself.1 hnext.1 fun x hx => (hother x hx).2, fun x hx => ?_, hs.bound⟩
  have hx' : x = b ∨ x = b + size ∨ x ∈ pre ++ post := by
    simp only [List.mem_append, List.mem_cons] at hx ⊢
    tauto
  rcases hx' with rfl | rfl | hx'
  · rw [hself.1]
    exact hal
  · have := hs.sizes b hb
    rw [hnext.1]
    omega
  · rw [(hother x hx').2]
    exact hs.sizes x (hother x hx').1

/-- Taking a block leaves blocks, the old ones among them. -/
theorem Blocks.take (hs : Blocks h.mem start stop bs) (hb : b ∈ bs) (hal : size % 16 = 0) (h16 : 16 ≤ size)
    (hle : size ≤ blockSize h.mem b) : ∃ bs', Blocks (h.take size b).mem start stop bs' ∧ bs ⊆ bs' := by
  rcases hle.eq_or_lt with heq | hlt
  · exact ⟨bs, hs.takeWhole hb heq.symm, List.Subset.refl bs⟩
  · obtain ⟨pre, post, rfl⟩ := List.append_of_mem hb
    refine ⟨_, hs.takeCut hal h16 hlt, fun x hx => ?_⟩
    simp only [List.mem_append, List.mem_cons] at hx ⊢
    tauto

end

end Icarus.Memory
