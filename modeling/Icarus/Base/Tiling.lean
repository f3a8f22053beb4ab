/-
Tilings of an interval by consecutive blocks: the blocks are named by where they start, and a
function gives their sizes.
-/
import Mathlib.Data.List.Nodup
import Mathlib.Tactic

namespace Icarus.Base

/-- Starting at `a` and adding up sizes, one meets exactly the blocks of the list and ends at `e`. -/
def Tiled (size : Nat → Nat) : Nat → List Nat → Nat → Prop
  | a, [], e => a = e
  | a, b :: bs, e => b = a ∧ 0 < size a ∧ Tiled size (a + size a) bs e

instance Tiled.decidable (size : Nat → Nat) : ∀ a bs e, Decidable (Tiled size a bs e)
  | a, [], e => inferInstanceAs (Decidable (a = e))
  | a, b :: bs, e =>
    have := Tiled.decidable size (a + size a) bs e
    inferInstanceAs (Decidable (b = a ∧ 0 < size a ∧ Tiled size (a + size a) bs e))

section
variable {size size' : Nat → Nat} {a b c e : Nat} {bs : List Nat}

theorem tiled_append {ys : List Nat} : ∀ {xs : List Nat} {a : Nat},
    Tiled size a (xs ++ ys) e ↔ ∃ c, Tiled size a xs c ∧ Tiled size c ys e
  | [], a => by simp [Tiled]
  | x :: xs, a => by
    show (_ ∧ _ ∧ Tiled size (a + size a) (xs ++ ys) e) ↔ _
    rw [tiled_append]
    simp [Tiled, and_assoc]

theorem Tiled.le : ∀ {bs : List Nat} {a : Nat}, Tiled size a bs e → a ≤ e
  | [], _, h => Nat.le_of_eq h
  | _ :: _, _, ⟨_, _, h⟩ => (Nat.le_add_right ..).trans h.le

/-- Every block lies inside the interval. -/
theorem Tiled.bounds : ∀ {bs : List Nat} {a b : Nat}, Tiled size a bs e → b ∈ bs → a ≤ b ∧ b + size b ≤ e
  | x :: bs, a, b, ⟨hx, _, h⟩, hb => by
    subst hx
    rcases List.mem_cons.1 hb with rfl | hb
    · exact ⟨le_refl _, h.le⟩
    · obtain ⟨h1, h2⟩ := h.bounds hb
      exact ⟨(Nat.le_add_right ..).trans h1, h2⟩

theorem Tiled.size_pos : ∀ {bs : List Nat} {a b : Nat}, Tiled size a bs e → b ∈ bs → 0 < size b
  | x :: bs, a, b, ⟨hx, hp, h⟩, hb => by
    subst hx
    rcases List.mem_cons.1 hb with rfl | hb
    · exact hp
    · exact h.size_pos hb

/-- Two blocks do not overlap. -/
theorem Tiled.apart : ∀ {bs : List Nat} {a b c : Nat}, Tiled size a bs e → b ∈ bs → c ∈ bs → b ≠ c →
    b + size b ≤ c ∨ c + size c ≤ b
  | x :: bs, a, b, c, ⟨hx, _, h⟩, hb, hc, hne => by
    subst hx
    rcases List.mem_cons.1 hb with hbx | hb
    · rcases List.mem_cons.1 hc with hcx | hc
      · exact absurd (hbx.trans hcx.symm) hne
      · exact .inl (hbx ▸ (h.bounds hc).1)
    · rcases List.mem_cons.1 hc with hcx | hc
      · exact .inr (hcx ▸ (h.bounds hb).1)
      · exact h.apart hb hc hne

/-- The tiling depends on the sizes of its own blocks only. -/
theorem Tiled.congr : ∀ {bs : List Nat} {a : Nat}, Tiled size a bs e → (∀ b ∈ bs, size' b = size b) →
    Tiled size' a bs e
  | [], _, h, _ => h
  | x :: bs, a, ⟨hx, hp, h⟩, hs => by
    have ha : size' a = size a := hx ▸ hs x (List.mem_cons_self ..)
    refine ⟨hx, ha ▸ hp, ?_⟩
    rw [ha]
    exact h.congr fun b hb => hs b (List.mem_cons_of_mem _ hb)

/-- A block cut in two. -/
theorem Tiled.split {xs ys : List Nat} {k : Nat} (h : Tiled size a (xs ++ b :: ys) e) (h0 : 0 < k) (hk : k < size b)
    (hb : size' b = k) (hbk : size' (b + k) = size b - k) (hsame : ∀ c ∈ xs ++ ys, size' c = size c) :
    Tiled size' a (xs ++ b :: (b + k) :: ys) e := by
  obtain ⟨c, hxs, hc, -, hys⟩ := tiled_append.1 h
  subst hc
  refine tiled_append.2 ⟨b, hxs.congr fun z hz => hsame z (List.mem_append_left _ hz), rfl, hb ▸ h0, ?_⟩
  rw [hb]
  refine ⟨rfl, by omega, ?_⟩
  rw [hbk, show b + k + (size b - k) = b + size b by omega]
  exact hys.congr fun z hz => hsame z (List.mem_append_right _ hz)

/-- With sizes that are multiples of `k`, from a multiple of `k` on, all blocks start at multiples of `k`. -/
theorem Tiled.aligned {k : Nat} : ∀ {bs : List Nat} {a b : Nat}, Tiled size a bs e → a % k = 0 →
    (∀ c ∈ bs, size c % k = 0) → b ∈ bs → b % k = 0
  | x :: bs, a, b, ⟨hx, _, h⟩, ha, hs, hb => by
    subst hx
    rcases List.mem_cons.1 hb with rfl | hb
    · exact ha
    · refine h.aligned ?_ (fun c hc => hs c (List.mem_cons_of_mem _ hc)) hb
      rw [Nat.add_mod, ha, hs x (List.mem_cons_self ..), Nat.zero_add, Nat.zero_mod]

/-- A block in a tiling of the same interval is met as well when the sizes in front of it are the same. -/
theorem Tiled.mem_of_agree : ∀ {bs bs' : List Nat} {a : Nat}, Tiled size a bs e → Tiled size' a bs' e → c ∈ bs' →
    (∀ b ∈ bs', b < c → size' b = size b) → c ∈ bs
  | [], _ :: _, _, h, h', _, _ => by
    obtain rfl := h
    obtain ⟨-, hp, h'⟩ := h'
    have := h'.le
    omega
  | x :: bs, y :: bs', a, ⟨hx, _, h⟩, ⟨hy, _, h'⟩, hc, hs => by
    subst hx hy
    rcases List.mem_cons.1 hc with rfl | hc
    · exact List.mem_cons_self ..
    · have hlt : y < c := by
        have := (h'.bounds hc).1
        omega
      rw [hs y (List.mem_cons_self ..) hlt] at h'
      exact List.mem_cons_of_mem _ (h.mem_of_agree h' hc fun b hb => hs b (List.mem_cons_of_mem _ hb))

/-- An interval is tiled in one way. -/
theorem Tiled.unique : ∀ {bs bs' : List Nat} {a : Nat}, Tiled size a bs e → Tiled size a bs' e → bs = bs'
  | [], [], _, _, _ => rfl
  | [], _ :: _, _, h, ⟨_, hp, h'⟩ => by
    obtain rfl := h
    have := h'.le
    omega
  | _ :: _, [], _, ⟨_, hp, h⟩, h' => by
    obtain rfl := h'
    have := h.le
    omega
  | x :: bs, y :: bs', a, ⟨hx, _, h⟩, ⟨hy, _, h'⟩ => by
    rw [hx, hy, h.unique h']

/-- The block that ends where the interval ends is the last one. -/
theorem Tiled.end_iff {xs ys : List Nat} (h : Tiled size a (xs ++ b :: ys) e) : b + size b = e ↔ ys = [] := by
  obtain ⟨c, -, hc, -, hys⟩ := tiled_append.1 h
  subst hc
  cases ys with
  | nil => exact iff_of_true hys rfl
  | cons y ys =>
    refine iff_of_false (fun he => ?_) (by simp)
    obtain ⟨-, hp, hys⟩ := hys
    have := hys.le
    omega

/-- The blocks in front of a block are those that start below it. -/
theorem Tiled.mem_front_iff {xs ys : List Nat} (h : Tiled size a (xs ++ b :: ys) e) (hc : c ∈ xs ++ b :: ys) :
    c ∈ xs ↔ c < b := by
  obtain ⟨x, hxs, hx, hys⟩ := tiled_append.1 h
  subst hx
  constructor
  · intro hmem
    have := hxs.size_pos hmem
    have := (hxs.bounds hmem).2
    omega
  · intro hlt
    rcases List.mem_append.1 hc with hmem | hmem
    · exact hmem
    · have := (Tiled.bounds (show Tiled size b (b :: ys) e from ⟨rfl, hys⟩) hmem).1
      omega

theorem Tiled.nodup : ∀ {bs : List Nat} {a : Nat}, Tiled size a bs e → bs.Nodup
  | [], _, _ => List.nodup_nil
  | x :: bs, a, ⟨hx, hp, h⟩ => by
    refine List.nodup_cons.2 ⟨fun hm => ?_, h.nodup⟩
    have := (h.bounds hm).1
    omega

/-- The blocks beside a block are others. -/
theorem Tiled.beside {xs ys : List Nat} (h : Tiled size a (xs ++ b :: ys) e) (hc : c ∈ xs ++ ys) :
    c ∈ xs ++ b :: ys ∧ c ≠ b := by
  constructor
  · rcases List.mem_append.1 hc with hc | hc
    · exact List.mem_append_left _ hc
    · exact List.mem_append_right _ (List.mem_cons_of_mem _ hc)
  · rintro rfl
    exact (List.nodup_middle.1 h.nodup).notMem hc

end

/-! ## Links back -/

/-- Each block names the size of the one in front of it, the first of them `p`. -/
def BackLinked (size back : Nat → Nat) : Nat → List Nat → Prop
  | _, [] => True
  | p, b :: bs => back b = p ∧ BackLinked size back (size b) bs

section
variable {size back size' back' : Nat → Nat}

instance BackLinked.decidable (size back : Nat → Nat) : ∀ p bs, Decidable (BackLinked size back p bs)
  | _, [] => inferInstanceAs (Decidable True)
  | p, b :: bs =>
    have := BackLinked.decidable size back (size b) bs
    inferInstanceAs (Decidable (back b = p ∧ BackLinked size back (size b) bs))

/-- The size of the last block of a list, `p` for none. -/
def lastSize (size : Nat → Nat) (p : Nat) (bs : List Nat) : Nat := bs.foldl (fun _ b => size b) p

theorem backLinked_append {ys : List Nat} : ∀ {xs : List Nat} {p : Nat}, BackLinked size back p (xs ++ ys) ↔
    BackLinked size back p xs ∧ BackLinked size back (lastSize size p xs) ys
  | [], p => by simp [BackLinked, lastSize]
  | x :: xs, p => by
    show (_ ∧ BackLinked size back (size x) (xs ++ ys)) ↔ _
    rw [backLinked_append, ← and_assoc]
    rfl

/-- The links depend on the sizes and links of their own blocks only. -/
theorem BackLinked.congr : ∀ {bs : List Nat} {p : Nat}, BackLinked size back p bs →
    (∀ b ∈ bs, size' b = size b ∧ back' b = back b) → BackLinked size' back' p bs
  | [], _, _, _ => trivial
  | b :: bs, p, ⟨hb, h⟩, hs => by
    obtain ⟨h1, h2⟩ := hs b (List.mem_cons_self ..)
    refine ⟨h2.trans hb, ?_⟩
    rw [h1]
    exact h.congr fun c hc => hs c (List.mem_cons_of_mem _ hc)

/-- A block links back to the one in front of it. -/
theorem BackLinked.step_back {xs ys : List Nat} {a b c e p : Nat} (h : BackLinked size back p (xs ++ b :: c :: ys))
    (ht : Tiled size a (xs ++ b :: c :: ys) e) : c = b + back c := by
  obtain ⟨-, -, hc, -⟩ := backLinked_append.1 h
  obtain ⟨x, -, hx, -, hc', -⟩ := tiled_append.1 ht
  rw [hc, hx]
  exact hc'

end

end Icarus.Base
