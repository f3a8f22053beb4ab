/-
Doubly linked lists over any type of nodes: two link functions, a list of nodes they thread, and
what taking a node out and appending one at the end does to that list.
-/
import Mathlib.Tactic

namespace Icarus.Base

variable {ν : Type}

/-- The nodes of `q` are linked both ways; the first one's `prev` is `b` and the last one's `next`
is `e`. -/
def Seg (next prev : ν → Option ν) : Option ν → List ν → Option ν → Prop
  | _, [], _ => True
  | b, x :: q, e => prev x = b ∧ next x = q.head?.or e ∧ Seg next prev (some x) q e

/-- The list from `head` to `last`: every node once, `NULL` at both ends. -/
structure Linked (next prev : ν → Option ν) (head last : Option ν) (q : List ν) : Prop where
  seg : Seg next prev none q none
  head_eq : head = q.head?
  last_eq : last = q.getLast?
  nodup : q.Nodup

/-- The nodes met by following `next` from a node, at most `fuel` of them. -/
def follow (next : ν → Option ν) : (fuel : Nat) → Option ν → List ν
  | 0, _ => []
  | _, none => []
  | fuel + 1, some x => x :: follow next fuel (next x)

section
variable {next prev next' prev' : ν → Option ν} {head last b e : Option ν} {q : List ν}

/-- Links of a concatenation: both halves and the seam. -/
theorem seg_append {ys : List ν} : ∀ {xs : List ν} {b : Option ν},
    Seg next prev b (xs ++ ys) e ↔
      Seg next prev b xs (ys.head?.or e) ∧ Seg next prev (xs.getLast?.or b) ys e
  | [], b => by simp [Seg]
  | [x], b => by simp [Seg, and_assoc]
  | x :: y :: xs, b => by
    have ih := @seg_append ys (y :: xs) (some x)
    show (prev x = b ∧ _ ∧ Seg next prev (some x) (y :: xs ++ ys) e) ↔ _
    rw [ih]
    simp [Seg, and_assoc, List.getLast?_cons]

/-- A segment reads only the links of its own nodes. -/
theorem Seg.congr : ∀ {q : List ν} {b : Option ν}, Seg next prev b q e →
    (∀ x ∈ q, next' x = next x ∧ prev' x = prev x) → Seg next' prev' b q e
  | [], _, _, _ => trivial
  | x :: q, b, ⟨h1, h2, h3⟩, h => by
    have hx := h x (List.mem_cons_self ..)
    exact ⟨hx.2.trans h1, hx.1.trans h2, h3.congr fun y hy => h y (List.mem_cons_of_mem _ hy)⟩

theorem Linked.congr (h : Linked next prev head last q)
    (hq : ∀ x ∈ q, next' x = next x ∧ prev' x = prev x) : Linked next' prev' head last q :=
  ⟨h.seg.congr hq, h.head_eq, h.last_eq, h.nodup⟩

/-- Following `next` from the first node meets the nodes of the list in order. -/
theorem Seg.follow_eq : ∀ {q : List ν} {b : Option ν} {fuel : Nat}, Seg next prev b q none →
    q.length ≤ fuel → follow next fuel q.head? = q
  | [], _, 0, _, _ => rfl
  | [], _, _ + 1, _, _ => rfl
  | x :: q, _, fuel + 1, ⟨_, hn, h⟩, hf => by
    rw [Option.or_none] at hn
    rw [List.head?_cons, follow, hn, h.follow_eq (Nat.le_of_succ_le_succ hf)]

theorem Linked.follow_eq {fuel : Nat} (h : Linked next prev head last q) (hf : q.length ≤ fuel) :
    follow next fuel head = q := by
  rw [h.head_eq]
  exact h.seg.follow_eq hf

/-- The links have one list. -/
theorem Linked.unique {q' : List ν} (h : Linked next prev head last q) (h' : Linked next prev head last q') : q = q' :=
  (h.follow_eq (Nat.le_max_left _ q'.length)).symm.trans (h'.follow_eq (Nat.le_max_right ..))

theorem Seg.prev_of_next : ∀ {q : List ν} {b : Option ν} {x y : ν}, Seg next prev b q none → x ∈ q →
    next x = some y → y ∈ q ∧ prev y = some x
  | z :: q, _, x, y, ⟨_, hn, h⟩, hx, hy => by
    rcases List.mem_cons.1 hx with rfl | hx
    · rw [hn, Option.or_none] at hy
      obtain ⟨ys, rfl⟩ := List.head?_eq_some_iff.1 hy
      exact ⟨by simp, h.1⟩
    · obtain ⟨hm, hp⟩ := h.prev_of_next hx hy
      exact ⟨List.mem_cons_of_mem _ hm, hp⟩

theorem Seg.next_of_prev : ∀ {q : List ν} {b : Option ν} {x y : ν}, Seg next prev b q e → y ∈ q →
    prev y = some x → b = some x ∧ q.head? = some y ∨ x ∈ q ∧ next x = some y
  | z :: q, b, x, y, ⟨hp, hn, h⟩, hy, hx => by
    rcases List.mem_cons.1 hy with rfl | hy
    · exact .inl ⟨hp.symm.trans hx, rfl⟩
    · rcases h.next_of_prev hy hx with ⟨hz, hh⟩ | ⟨hm, hh⟩
      · cases hz
        exact .inr ⟨List.mem_cons_self .., by rw [hn, hh, Option.some_or]⟩
      · exact .inr ⟨List.mem_cons_of_mem _ hm, hh⟩

/-- The two links are inverse to each other on the list. -/
theorem Linked.next_iff_prev {x y : ν} (h : Linked next prev head last q) :
    x ∈ q ∧ next x = some y ↔ y ∈ q ∧ prev y = some x := by
  constructor
  · rintro ⟨hx, hy⟩
    exact h.seg.prev_of_next hx hy
  · rintro ⟨hy, hx⟩
    rcases h.seg.next_of_prev hy hx with ⟨hb, -⟩ | hn
    · cases hb
    · exact hn

theorem Linked.exists_head (h : Linked next prev head last q) (hq : q ≠ []) : ∃ x, head = some x := by
  rw [h.head_eq]
  exact Option.isSome_iff_exists.1 (List.isSome_head?.2 hq)

theorem Linked.exists_last (h : Linked next prev head last q) (hq : q ≠ []) : ∃ x, last = some x := by
  rw [h.last_eq]
  exact Option.isSome_iff_exists.1 (List.getLast?_isSome.2 hq)

/-- The first node has no predecessor. -/
theorem Linked.prev_head {x : ν} (h : Linked next prev head last q) (hx : head = some x) : prev x = none := by
  obtain ⟨ys, rfl⟩ := List.head?_eq_some_iff.1 (h.head_eq.symm.trans hx)
  exact h.seg.1

variable [DecidableEq ν]

/-- Appending a new node behind the last one. -/
theorem Linked.push {l x : ν} (h : Linked next prev head (some l) q) (hx : x ∉ q) :
    Linked (Function.update (Function.update next l (some x)) x none) (Function.update prev x (some l))
      head (some x) (q ++ [x]) := by
  obtain ⟨ys, rfl⟩ : ∃ ys, q = ys ++ [l] := by
    rcases List.eq_nil_or_concat q with rfl | ⟨ys, a, rfl⟩
    · cases h.last_eq
    · have := h.last_eq
      simp only [List.concat_eq_append, List.getLast?_append, List.getLast?_singleton, Option.some_or,
        Option.some.injEq] at this
      exact ⟨ys, by rw [this, List.concat_eq_append]⟩
  have hl : x ≠ l := fun he => hx (by simp [he])
  have hys : l ∉ ys := by
    have := h.nodup
    rw [List.nodup_append] at this
    exact fun hm => this.2.2 l hm l (List.mem_singleton_self l) rfl
  obtain ⟨h1, h2, h3, -⟩ := seg_append.1 h.seg
  refine ⟨?_, by rw [h.head_eq]; simp, by simp, ?_⟩
  · refine seg_append.2 ⟨seg_append.2 ⟨?_, ?_, ?_, trivial⟩, ?_, ?_, trivial⟩
    · refine Seg.congr h1 fun y hy => ?_
      have hy1 : y ≠ x := fun he => hx (by rw [← he]; exact List.mem_append_left _ hy)
      have hy2 : y ≠ l := fun he => hys (he ▸ hy)
      simp [Function.update_of_ne hy1, Function.update_of_ne hy2]
    · rw [Function.update_of_ne hl.symm]
      exact h2
    · rw [Function.update_of_ne hl.symm, Function.update_self]
      rfl
    · simp
    · simp
  · rw [List.nodup_append]
    refine ⟨h.nodup, List.nodup_singleton _, fun a ha c hc => ?_⟩
    rw [List.mem_singleton] at hc
    subst hc
    exact fun he => hx (he ▸ ha)

/-- Taking the first node out. -/
theorem Linked.unlinkHead {x y : ν} {ys : List ν} (h : Linked next prev head last (x :: y :: ys)) :
    Linked next (Function.update prev y none) (some y) last (y :: ys) := by
  obtain ⟨-, -, -, h2, h3⟩ := h.seg
  have hnd := (List.nodup_cons.1 h.nodup).2
  refine ⟨⟨by simp, h2, h3.congr fun z hz => ⟨rfl, ?_⟩⟩, rfl, by rw [h.last_eq]; simp [List.getLast?_cons], hnd⟩
  rw [Function.update_of_ne]
  rintro rfl
  exact (List.nodup_cons.1 hnd).1 hz

/-- Taking a node out from between two others. -/
theorem Linked.unlinkMid {p x y : ν} {xs ys : List ν} (h : Linked next prev head last (xs ++ p :: x :: y :: ys)) :
    Linked (Function.update next p (some y)) (Function.update prev y (some p)) head last
      (xs ++ p :: y :: ys) := by
  obtain ⟨h1, h2, -, -, -, -, h3, h4⟩ := seg_append.1 h.seg
  have hnd : (xs ++ p :: y :: ys).Nodup := by
    refine h.nodup.sublist ?_
    exact (List.Sublist.refl xs).append (((List.Sublist.refl (y :: ys)).cons x).cons_cons p)
  have hnd' := hnd
  rw [List.nodup_append, List.nodup_cons, List.nodup_cons] at hnd'
  obtain ⟨-, ⟨hp, hy, -⟩, hdis⟩ := hnd'
  have hpy : p ≠ y := fun he => hp (by rw [he]; exact List.mem_cons_self ..)
  refine ⟨seg_append.2 ⟨h1.congr fun z hz => ?_, ?_, ?_, ?_, ?_, h4.congr fun z hz => ?_⟩, ?_, ?_, hnd⟩
  · have hzp : z ≠ p := hdis z hz p (List.mem_cons_self ..)
    have hzy : z ≠ y := hdis z hz y (List.mem_cons_of_mem _ (List.mem_cons_self ..))
    exact ⟨Function.update_of_ne hzp .., Function.update_of_ne hzy ..⟩
  · rw [Function.update_of_ne hpy]
    exact h2
  · rw [Function.update_self]
    rfl
  · rw [Function.update_self]
  · rw [Function.update_of_ne hpy.symm]
    exact h3
  · have hzp : z ≠ p := fun he => hp (by rw [← he]; exact List.mem_cons_of_mem _ hz)
    have hzy : z ≠ y := fun he => hy (by rw [← he]; exact hz)
    exact ⟨Function.update_of_ne hzp .., Function.update_of_ne hzy ..⟩
  · rw [h.head_eq]
    cases xs <;> rfl
  · rw [h.last_eq]
    simp [List.getLast?_append, List.getLast?_cons]

end

end Icarus.Base
