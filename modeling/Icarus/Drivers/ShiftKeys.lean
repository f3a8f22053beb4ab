/-
The shift flag of the decoder (PS2_Keyboard.c) against the shift keys themselves: one flag stands for two keys, so it
is wrong from where one of them is let go while the other is held.
-/
import Icarus.Drivers.Keyboard

namespace Icarus.Drivers

/-! ## Keys that are held -/

/-- The scancode of a key that is not extended: any byte but the two prefixes. -/
structure Scancode where
  val : Nat
  lt : val < 256
  ne_ext : val ≠ sc2ExtPrefix
  ne_break : val ≠ sc2BreakPrefix
  deriving DecidableEq

/-- One of the two shift keys. -/
def Scancode.IsShift (key : Scancode) : Prop := key.val = sc2Lshift ∨ key.val = sc2Rshift

instance (key : Scancode) : Decidable key.IsShift := inferInstanceAs (Decidable (_ ∨ _))

/-- A complete event of such a key; a make of a key that is held is a typematic repeat. -/
inductive Stroke
  | make (key : Scancode)
  | brk (key : Scancode)

/-- The bytes of an event. -/
def Stroke.bytes : Stroke → List Nat
  | .make key => [key.val]
  | .brk key => [sc2BreakPrefix, key.val]

/-- The keys that are held behind an event. -/
def Stroke.held (before : Finset Scancode) : Stroke → Finset Scancode
  | .make key => insert key before
  | .brk key => before.erase key

/-- A key is let go only when it is held. -/
def Alternates : Finset Scancode → List Stroke → Prop
  | _, [] => True
  | held, .make key :: strokes => Alternates (insert key held) strokes
  | held, .brk key :: strokes => key ∈ held ∧ Alternates (held.erase key) strokes

/-- A shift key is held. -/
def ShiftHeld (held : Finset Scancode) : Prop := ∃ key ∈ held, key.IsShift

/-! ## The property -/

/-- The flag is true exactly if a shift key is held. -/
def ShiftFollows (s : Ps2KbState) (held : Finset Scancode) : Prop := s.shift = true ↔ ShiftHeld held

/-- It is so behind every event of the stream. -/
def StreamFollows : Ps2KbState → Finset Scancode → List Stroke → Prop
  | _, _, [] => True
  | s, held, stroke :: strokes =>
    ShiftFollows (kbdFeed stroke.bytes s).2 (stroke.held held) ∧
      StreamFollows (kbdFeed stroke.bytes s).2 (stroke.held held) strokes

/-- No shift key is let go while the other one is held. -/
def LetGoAlone (held : Finset Scancode) : Stroke → Prop
  | .make _ => True
  | .brk key => key.IsShift → ∀ other ∈ held, other.IsShift → other = key

/-- No event of the stream does so. -/
def ShiftsApart : Finset Scancode → List Stroke → Prop
  | _, [] => True
  | held, stroke :: strokes => LetGoAlone held stroke ∧ ShiftsApart (stroke.held held) strokes

/-! ## One event -/

section
variable {s : Ps2KbState} {held : Finset Scancode}

/-- A shift key sets the flag, or clears it behind the break prefix; no other key touches it. -/
theorem kbdTranslate_shift (key : Scancode) (h : s.extended = false) :
    (kbdTranslate key.val s).2.Idle ∧
      (kbdTranslate key.val s).2.shift = if key.IsShift then !s.release else s.shift := by
  unfold kbdTranslate
  rw [if_neg key.ne_ext, h, if_neg Bool.false_ne_true, if_neg key.ne_break]
  dsimp only
  by_cases hshift : key.IsShift
  · rw [if_pos (show _ ∨ _ from hshift), if_pos hshift]
    exact ⟨⟨rfl, rfl⟩, rfl⟩
  · rw [if_neg (show ¬(_ ∨ _) from hshift), if_neg hshift]
    split_ifs <;> exact ⟨⟨rfl, rfl⟩, rfl⟩

/-- What an event leaves in the flag. -/
theorem stroke_shift (hs : s.Idle) (stroke : Stroke) :
    (kbdFeed stroke.bytes s).2.Idle ∧
      (kbdFeed stroke.bytes s).2.shift =
        match stroke with
        | .make key => if key.IsShift then true else s.shift
        | .brk key => if key.IsShift then false else s.shift := by
  cases stroke with
  | make key =>
    have h := kbdTranslate_shift key hs.1
    rw [hs.2] at h
    exact h
  | brk key =>
    have hbrk : (kbdTranslate sc2BreakPrefix s).2 = { s with release := true } := by
      unfold kbdTranslate
      rw [if_neg (by decide), hs.1]
      rfl
    have h := kbdTranslate_shift (s := { s with release := true }) key hs.1
    show (kbdTranslate key.val (kbdTranslate sc2BreakPrefix s).2).2.Idle ∧
      (kbdTranslate key.val (kbdTranslate sc2BreakPrefix s).2).2.shift = if key.IsShift then false else s.shift
    rw [hbrk]
    exact h

theorem shiftHeld_insert {key : Scancode} : ShiftHeld (insert key held) ↔ key.IsShift ∨ ShiftHeld held := by
  unfold ShiftHeld
  constructor
  · rintro ⟨other, hin, hshift⟩
    rcases Finset.mem_insert.1 hin with rfl | hin
    · exact .inl hshift
    · exact .inr ⟨other, hin, hshift⟩
  · rintro (hshift | ⟨other, hin, hshift⟩)
    · exact ⟨key, Finset.mem_insert_self .., hshift⟩
    · exact ⟨other, Finset.mem_insert_of_mem hin, hshift⟩

theorem shiftHeld_erase {key : Scancode} (hkey : ¬key.IsShift) : ShiftHeld (held.erase key) ↔ ShiftHeld held := by
  unfold ShiftHeld
  constructor
  · rintro ⟨other, hin, hshift⟩
    exact ⟨other, Finset.mem_of_mem_erase hin, hshift⟩
  · rintro ⟨other, hin, hshift⟩
    exact ⟨other, Finset.mem_erase.2 ⟨fun heq => hkey (heq ▸ hshift), hin⟩, hshift⟩

/-- Where the flag was right it is right behind an event, unless that lets go one shift key of two. -/
theorem shiftFollows_iff (hs : s.Idle) (h : ShiftFollows s held) (stroke : Stroke) :
    ShiftFollows (kbdFeed stroke.bytes s).2 (stroke.held held) ↔ LetGoAlone held stroke := by
  unfold ShiftFollows
  rw [(stroke_shift hs stroke).2]
  cases stroke with
  | make key =>
    dsimp only [Stroke.held, LetGoAlone]
    rw [shiftHeld_insert, iff_true]
    by_cases hkey : key.IsShift
    · rw [if_pos hkey]
      exact ⟨fun _ => .inl hkey, fun _ => rfl⟩
    · rw [if_neg hkey]
      exact h.trans (or_iff_right hkey).symm
  | brk key =>
    dsimp only [Stroke.held, LetGoAlone]
    by_cases hkey : key.IsShift
    · -- the flag is false from here on, so no other shift key may be held
      rw [if_pos hkey]
      constructor
      · intro hfollows _ other hin hshift
        by_contra hne
        exact Bool.false_ne_true (hfollows.2 ⟨other, Finset.mem_erase.2 ⟨hne, hin⟩, hshift⟩)
      · intro halone
        refine ⟨fun hf => absurd hf Bool.false_ne_true, ?_⟩
        rintro ⟨other, hin, hshift⟩
        obtain ⟨hne, hin⟩ := Finset.mem_erase.1 hin
        exact absurd (halone hkey other hin hshift) hne
    · rw [if_neg hkey, shiftHeld_erase hkey]
      exact ⟨fun _ hshift => absurd hshift hkey, fun _ => h⟩

end

/-! ## Streams -/

/-- The flag follows the held keys through a stream exactly when no shift key is let go in it while the other one is
held, in whatever order its keys are made, repeated and let go. -/
theorem shift_follows_iff {s : Ps2KbState} {held : Finset Scancode} (hs : s.Idle) (h : ShiftFollows s held)
    (strokes : List Stroke) : StreamFollows s held strokes ↔ ShiftsApart held strokes := by
  induction strokes generalizing s held with
  | nil => exact Iff.rfl
  | cons stroke strokes ih =>
    rw [StreamFollows, ShiftsApart, ← shiftFollows_iff hs h]
    exact and_congr_right fun hnext => ih (stroke_shift hs stroke).1 hnext

/-- The left shift key. -/
def lshift : Scancode := ⟨sc2Lshift, by decide, by decide, by decide⟩

/-- The right shift key. -/
def rshift : Scancode := ⟨sc2Rshift, by decide, by decide, by decide⟩

/-- At boot no key is held: one shift key after the other, the first of them with a repeat. -/
theorem shift_follows_iff_boot :
    StreamFollows ps2State ∅ [.make lshift, .make lshift, .brk lshift, .make rshift, .brk rshift] ↔
      ShiftsApart ∅ [.make lshift, .make lshift, .brk lshift, .make rshift, .brk rshift] :=
  shift_follows_iff ⟨rfl, rfl⟩ ⟨fun h => absurd h Bool.false_ne_true, fun ⟨_, hin, _⟩ => absurd hin (Finset.notMem_empty _)⟩ _

/-- Both are pressed and one is let go: the flag says that none is held. -/
theorem shift_lost :
    Alternates ∅ [.make lshift, .make rshift, .brk lshift] ∧
      ¬StreamFollows ps2State ∅ [.make lshift, .make rshift, .brk lshift] := by
  refine ⟨⟨by decide, trivial⟩, fun h => ?_⟩
  have hflag := h.2.2.1.2 ⟨rshift, by decide, by decide⟩
  exact absurd hflag (by decide)

end Icarus.Drivers
