/-
A pool of resources: blocks of cells are taken out of the free ones and given back. Whatever the
order of the steps, the blocks that are out are disjoint from each other and from what is free,
and nothing is handed out that was not free at the start.
-/
import Mathlib

namespace Icarus.Base

/-- The free cells, and the blocks that are out. -/
structure Pool (α β : Type) where
  free : Set α
  out : List β

namespace Pool

variable {α β : Type} (cells : β → Set α)

/-- A free block is taken, or a block that is out is given back. -/
inductive Step [BEq β] : Pool α β → Pool α β → Prop
  | take {p : Pool α β} (b : β) : cells b ⊆ p.free → Step p ⟨p.free \ cells b, b :: p.out⟩
  | give {p : Pool α β} (b : β) : b ∈ p.out → Step p ⟨p.free ∪ cells b, p.out.erase b⟩

/-- The blocks that are out are disjoint from each other and from the free cells, and everything
comes from `total`. -/
structure Sound (total : Set α) (p : Pool α β) : Prop where
  disjoint : p.out.Pairwise fun b c => Disjoint (cells b) (cells c)
  held : ∀ b ∈ p.out, Disjoint (cells b) p.free
  out : ∀ b ∈ p.out, cells b ⊆ total
  free : p.free ⊆ total

variable {cells}

theorem sound_init (total : Set α) : Sound cells total ⟨total, []⟩ :=
  ⟨List.Pairwise.nil, by simp, by simp, le_refl _⟩

theorem Step.sound [BEq β] [LawfulBEq β] {total : Set α} {p q : Pool α β} (h : Step cells p q) (hs : Sound cells total p) :
    Sound cells total q := by
  cases h with
  | take b hb =>
    refine ⟨List.pairwise_cons.2 ⟨fun c hc => ?_, hs.disjoint⟩, ?_, ?_, ?_⟩
    · exact (hs.held c hc).symm.mono_left hb
    · intro c hc
      rcases List.mem_cons.1 hc with rfl | hc
      · exact Set.disjoint_sdiff_right
      · exact (hs.held c hc).mono_right Set.sdiff_subset
    · intro c hc
      rcases List.mem_cons.1 hc with rfl | hc
      · exact hb.trans hs.free
      · exact hs.out c hc
    · exact Set.sdiff_subset.trans hs.free
  | give b hb =>
    have hperm := List.perm_cons_erase hb
    have hpair : (b :: p.out.erase b).Pairwise fun b c => Disjoint (cells b) (cells c) :=
      (hperm.pairwise_iff fun h => h.symm).1 hs.disjoint
    obtain ⟨hbs, hrest⟩ := List.pairwise_cons.1 hpair
    refine ⟨hrest, ?_, ?_, ?_⟩
    · intro c hc
      exact Set.disjoint_union_right.2 ⟨hs.held c (List.mem_of_mem_erase hc), (hbs c hc).symm⟩
    · exact fun c hc => hs.out c (List.mem_of_mem_erase hc)
    · exact Set.union_subset hs.free (hs.out b hb)

end Pool

end Icarus.Base
