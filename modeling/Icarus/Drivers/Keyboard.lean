/-
The decoder of PS/2 scancodes, set 2 (PS2_Keyboard.c, PS2_Scancode.h), over whole streams of key events:
it stays in step, but takes the last byte of an extended break for a key that is pressed.
-/
import Mathlib.Tactic

namespace Icarus.Drivers

/-! ## The tables -/

/-- `SC2_BREAK_PREFIX`. -/
def sc2BreakPrefix : Nat := 0xF0

/-- `SC2_EXT_PREFIX`. -/
def sc2ExtPrefix : Nat := 0xE0

/-- `SC2_LSHIFT`. -/
def sc2Lshift : Nat := 0x12

/-- `SC2_RSHIFT`. -/
def sc2Rshift : Nat := 0x59

/-- `SC2_CAPS`. -/
def sc2Caps : Nat := 0x58

/-- The number of entries of `sc2_normal`. -/
def sc2Size : Nat := 128

/-- The keypad (NumLock on), the same in both tables. -/
def sc2Keypad : List (Nat × Nat) :=
  [(0x69, '1'.toNat), (0x6B, '4'.toNat), (0x6C, '7'.toNat), (0x70, '0'.toNat), (0x71, '.'.toNat), (0x72, '2'.toNat),
    (0x73, '5'.toNat), (0x74, '6'.toNat), (0x75, '8'.toNat), (0x79, '+'.toNat), (0x7A, '3'.toNat), (0x7B, '-'.toNat),
    (0x7C, '*'.toNat), (0x7D, '9'.toNat)]

/-- The entries of `sc2_normal` that are not 0. -/
def sc2NormalEntries : List (Nat × Nat) :=
  [(0x0D, 0x09), (0x0E, 0x60), (0x15, 'q'.toNat), (0x16, '1'.toNat), (0x1A, 'z'.toNat), (0x1B, 's'.toNat),
    (0x1C, 'a'.toNat), (0x1D, 'w'.toNat), (0x1E, '2'.toNat), (0x21, 'c'.toNat), (0x22, 'x'.toNat), (0x23, 'd'.toNat),
    (0x24, 'e'.toNat), (0x25, '4'.toNat), (0x26, '3'.toNat), (0x29, ' '.toNat), (0x2A, 'v'.toNat), (0x2B, 'f'.toNat),
    (0x2C, 't'.toNat), (0x2D, 'r'.toNat), (0x2E, '5'.toNat), (0x31, 'n'.toNat), (0x32, 'b'.toNat), (0x33, 'h'.toNat),
    (0x34, 'g'.toNat), (0x35, 'y'.toNat), (0x36, '6'.toNat), (0x3A, 'm'.toNat), (0x3B, 'j'.toNat), (0x3C, 'u'.toNat),
    (0x3D, '7'.toNat), (0x3E, '8'.toNat), (0x41, ','.toNat), (0x42, 'k'.toNat), (0x43, 'i'.toNat), (0x44, 'o'.toNat),
    (0x45, '0'.toNat), (0x46, '9'.toNat), (0x49, '.'.toNat), (0x4A, '/'.toNat), (0x4B, 'l'.toNat), (0x4C, ';'.toNat),
    (0x4D, 'p'.toNat), (0x4E, '-'.toNat), (0x52, 0x27), (0x54, '['.toNat), (0x55, '='.toNat), (0x5A, 0x0A),
    (0x5B, ']'.toNat), (0x5D, 0x5C), (0x66, 0x08), (0x76, 27)] ++ sc2Keypad

/-- The entries of `sc2_shift` that are not 0. -/
def sc2ShiftEntries : List (Nat × Nat) :=
  [(0x0D, 0x09), (0x0E, '~'.toNat), (0x15, 'Q'.toNat), (0x16, '!'.toNat), (0x1A, 'Z'.toNat), (0x1B, 'S'.toNat),
    (0x1C, 'A'.toNat), (0x1D, 'W'.toNat), (0x1E, '@'.toNat), (0x21, 'C'.toNat), (0x22, 'X'.toNat), (0x23, 'D'.toNat),
    (0x24, 'E'.toNat), (0x25, '$'.toNat), (0x26, '#'.toNat), (0x29, ' '.toNat), (0x2A, 'V'.toNat), (0x2B, 'F'.toNat),
    (0x2C, 'T'.toNat), (0x2D, 'R'.toNat), (0x2E, '%'.toNat), (0x31, 'N'.toNat), (0x32, 'B'.toNat), (0x33, 'H'.toNat),
    (0x34, 'G'.toNat), (0x35, 'Y'.toNat), (0x36, '^'.toNat), (0x3A, 'M'.toNat), (0x3B, 'J'.toNat), (0x3C, 'U'.toNat),
    (0x3D, '&'.toNat), (0x3E, '*'.toNat), (0x41, '<'.toNat), (0x42, 'K'.toNat), (0x43, 'I'.toNat), (0x44, 'O'.toNat),
    (0x45, ')'.toNat), (0x46, '('.toNat), (0x49, '>'.toNat), (0x4A, '?'.toNat), (0x4B, 'L'.toNat), (0x4C, ':'.toNat),
    (0x4D, 'P'.toNat), (0x4E, '_'.toNat), (0x52, 0x22), (0x54, 0x7B), (0x55, '+'.toNat), (0x5A, 0x0A), (0x5B, 0x7D),
    (0x5D, '|'.toNat), (0x66, 0x08), (0x76, 27)] ++ sc2Keypad

/-- `sc2_normal[sc]`, as the code of the character; 0 is no character. -/
def sc2Normal (sc : Nat) : Nat := (sc2NormalEntries.lookup sc).getD 0

/-- `sc2_shift[sc]`. -/
def sc2Shift (sc : Nat) : Nat := (sc2ShiftEntries.lookup sc).getD 0

/-! ## The decoder -/

/-- `ps2_kb_state`. -/
structure Ps2KbState where
  shift : Bool
  caps : Bool
  release : Bool
  extended : Bool
  deriving DecidableEq, Repr

/-- The end of `kbd_translate`: caps lock affects letters only. -/
def applyCaps (shift caps : Bool) (c : Nat) : Nat :=
  if caps && 'a'.toNat ≤ c && c ≤ 'z'.toNat then c - 32
  else if caps && 'A'.toNat ≤ c && c ≤ 'Z'.toNat && shift then c + 32
  else c

/-- `kbd_translate`: the character, 0 for none, and the flags after the byte. -/
def kbdTranslate (sc : Nat) (s : Ps2KbState) : Nat × Ps2KbState :=
  if sc = sc2ExtPrefix then (0, { s with extended := true })
  else if s.extended then (0, { s with extended := false })
  else if sc = sc2BreakPrefix then (0, { s with release := true })
  else
    let release := s.release
    let s := { s with release := false }
    if sc = sc2Lshift ∨ sc = sc2Rshift then (0, { s with shift := !release })
    else if sc = sc2Caps ∧ release then (0, { s with caps := !s.caps })
    else if release ∨ sc ≥ sc2Size then (0, s)
    else (applyCaps s.shift s.caps (if s.shift then sc2Shift sc else sc2Normal sc), s)

/-- The decoder fed byte by byte: what it returned for each, and its flags at the end. -/
def kbdFeed : (bytes : List Nat) → Ps2KbState → List Nat × Ps2KbState
  | [], s => ([], s)
  | sc :: bytes, s =>
    let (c, s) := kbdTranslate sc s
    let (cs, s) := kbdFeed bytes s
    (c :: cs, s)

/-! ## Events -/

/-- The keys of the set, their scancodes below 0x80. -/
abbrev Key : Type := Fin 128

/-- A complete key event. -/
inductive KeyEvent
  | make (key : Key)
  | brk (key : Key)
  | extMake (key : Key)
  | extBreak (key : Key)

/-- The bytes of an event. -/
def KeyEvent.bytes : KeyEvent → List Nat
  | .make key => [key.val]
  | .brk key => [sc2BreakPrefix, key.val]
  | .extMake key => [sc2ExtPrefix, key.val]
  | .extBreak key => [sc2ExtPrefix, sc2BreakPrefix, key.val]

/-- One of the two shift keys. -/
def Key.IsShift (key : Key) : Prop := key.val = sc2Lshift ∨ key.val = sc2Rshift

instance (key : Key) : Decidable key.IsShift := inferInstanceAs (Decidable (_ ∨ _))

/-- Neither a shift key nor caps lock. -/
def Key.Plain (key : Key) : Prop := ¬key.IsShift ∧ key.val ≠ sc2Caps

instance (key : Key) : Decidable key.Plain := inferInstanceAs (Decidable (_ ∧ _))

/-- The letter on a key, if there is one. -/
def Key.IsLetter (key : Key) : Prop := 'a'.toNat ≤ sc2Normal key ∧ sc2Normal key ≤ 'z'.toNat

instance (key : Key) : Decidable key.IsLetter := inferInstanceAs (Decidable (_ ∧ _))

/-- What is held and locked, as a user of the keyboard sees it. -/
structure Modifiers where
  shift : Bool
  caps : Bool
  deriving DecidableEq

/-- The character of a key: a letter is a capital when one of shift and caps lock is on, but not both; of the
other keys shift alone chooses. -/
def Modifiers.char (mods : Modifiers) (key : Key) : Nat :=
  if key.IsLetter then (if mods.shift != mods.caps then sc2Shift key else sc2Normal key)
  else if mods.shift then sc2Shift key else sc2Normal key

/-- What an event does to the modifiers: shift follows its keys, and caps lock changes when its key is let go. -/
def Modifiers.next (mods : Modifiers) : KeyEvent → Modifiers
  | .make key => if key.IsShift then { mods with shift := true } else mods
  | .brk key =>
    if key.IsShift then { mods with shift := false }
    else if key.val = sc2Caps then { mods with caps := !mods.caps }
    else mods
  | .extMake _ => mods
  | .extBreak _ => mods

/-! ## The property -/

/-- The modifiers the keyboard keeps. -/
def Ps2KbState.mods (s : Ps2KbState) : Modifiers := ⟨s.shift, s.caps⟩

/-- No prefix is pending. -/
def Ps2KbState.Idle (s : Ps2KbState) : Prop := s.extended = false ∧ s.release = false

/-- No byte gave a character. -/
def Silent (cs : List Nat) : Prop := ∀ c ∈ cs, c = 0

/-- What an event may give and leave: a plain key its character when it is made, a break nothing, and an
extended event nothing, with shift and caps as they were. -/
def EventServed (s : Ps2KbState) (event : KeyEvent) (cs : List Nat) (s' : Ps2KbState) : Prop :=
  s'.Idle ∧
    match event with
    | .make key => key.Plain → cs = [s.mods.char key]
    | .brk _ => Silent cs
    | .extMake _ => Silent cs ∧ s'.mods = s.mods
    | .extBreak _ => Silent cs ∧ s'.mods = s.mods

/-- Every event of the stream is served. -/
def StreamServed : Ps2KbState → List KeyEvent → Prop
  | _, [] => True
  | s, event :: events =>
    EventServed s event (kbdFeed event.bytes s).1 (kbdFeed event.bytes s).2 ∧
      StreamServed (kbdFeed event.bytes s).2 events

/-- An extended break that names a key without a character, or a shift key while shift is held. -/
def Harmless (mods : Modifiers) : KeyEvent → Prop
  | .extBreak key => if key.IsShift then mods.shift = true else mods.char key = 0
  | _ => True

/-- Every extended break of the stream is harmless. -/
def StreamHarmless : Modifiers → List KeyEvent → Prop
  | _, [] => True
  | mods, event :: events => Harmless mods event ∧ StreamHarmless (mods.next event) events

/-! ## One event -/

theorem key_ne_escape (key : Key) : key.val ≠ sc2ExtPrefix ∧ key.val ≠ sc2BreakPrefix := by
  have h := key.isLt
  unfold sc2ExtPrefix sc2BreakPrefix
  omega

/-- A byte below 0x80 with no prefix pending. -/
theorem kbdTranslate_key (key : Key) {s : Ps2KbState} (h : s.extended = false) :
    kbdTranslate key s =
      if key.IsShift then (0, { s with release := false, shift := !s.release })
      else if key.val = sc2Caps ∧ s.release then (0, { s with release := false, caps := !s.caps })
      else if s.release then (0, { s with release := false })
      else (applyCaps s.shift s.caps (if s.shift then sc2Shift key else sc2Normal key), { s with release := false }) := by
  obtain ⟨h1, h2⟩ := key_ne_escape key
  have h3 : ¬key.val ≥ sc2Size := not_le.2 key.isLt
  unfold kbdTranslate
  rw [if_neg h1, h, if_neg Bool.false_ne_true, if_neg h2]
  simp only [h3, or_false]
  rfl

/-- The tables say the same letters, small and capital. -/
theorem applyCaps_eq_char (mods : Modifiers) (key : Key) :
    applyCaps mods.shift mods.caps (if mods.shift then sc2Shift key else sc2Normal key) = mods.char key := by
  obtain ⟨shift, caps⟩ := mods
  revert shift caps key
  decide

section
variable {s : Ps2KbState}

/-- A make. -/
theorem kbdFeed_key (hs : s.Idle) (key : Key) :
    kbdFeed [key.val] s =
      if key.IsShift then ([0], { s with shift := true }) else ([s.mods.char key], s) := by
  obtain ⟨shift, caps, release, extended⟩ := s
  obtain ⟨rfl, rfl⟩ := hs
  have hchar := applyCaps_eq_char ⟨shift, caps⟩ key
  simp only [kbdFeed, kbdTranslate_key key (s := ⟨shift, caps, false, false⟩) rfl, hchar]
  split_ifs with h1 h2 h3
  · rfl
  · exact h2.2.elim
  · exact h3.elim
  · rfl

/-- A break: the second byte finds the release pending. -/
theorem kbdFeed_brk (hs : s.Idle) (key : Key) :
    kbdFeed [sc2BreakPrefix, key.val] s =
      ([0, 0], if key.IsShift then { s with shift := false }
        else if key.val = sc2Caps then { s with caps := !s.caps }
        else s) := by
  obtain ⟨shift, caps, release, extended⟩ := s
  obtain ⟨rfl, rfl⟩ := hs
  have hprefix : kbdTranslate sc2BreakPrefix ⟨shift, caps, false, false⟩ = (0, ⟨shift, caps, true, false⟩) := rfl
  simp only [kbdFeed, hprefix, kbdTranslate_key key (s := ⟨shift, caps, true, false⟩) rfl, and_true]
  split_ifs <;> rfl

/-- An extended make: the prefix swallows the key. -/
theorem kbdFeed_extMake (hs : s.Idle) (key : Key) : kbdFeed [sc2ExtPrefix, key.val] s = ([0, 0], s) := by
  obtain ⟨shift, caps, release, extended⟩ := s
  obtain ⟨rfl, rfl⟩ := hs
  simp [kbdFeed, kbdTranslate, (key_ne_escape key).1]

/-- An extended break: the extended prefix swallows the break prefix, and the key is left as a make. -/
theorem kbdFeed_extBreak (hs : s.Idle) (key : Key) :
    kbdFeed [sc2ExtPrefix, sc2BreakPrefix, key.val] s =
      (0 :: 0 :: (kbdFeed [key.val] s).1, (kbdFeed [key.val] s).2) := by
  obtain ⟨shift, caps, release, extended⟩ := s
  obtain ⟨rfl, rfl⟩ := hs
  rfl

/-- No prefix is pending after an event. -/
theorem event_idle (hs : s.Idle) (event : KeyEvent) : (kbdFeed event.bytes s).2.Idle := by
  cases event with
  | make key =>
    rw [KeyEvent.bytes, kbdFeed_key hs]
    split_ifs <;> exact hs
  | brk key =>
    rw [KeyEvent.bytes, kbdFeed_brk hs]
    split_ifs <;> exact hs
  | extMake key =>
    rw [KeyEvent.bytes, kbdFeed_extMake hs]
    exact hs
  | extBreak key =>
    rw [KeyEvent.bytes, kbdFeed_extBreak hs, kbdFeed_key hs]
    split_ifs <;> exact hs

/-- A harmless event leaves shift and caps lock as a user sees them. -/
theorem event_mods (hs : s.Idle) {event : KeyEvent} (h : Harmless s.mods event) :
    (kbdFeed event.bytes s).2.mods = s.mods.next event := by
  cases event with
  | make key =>
    rw [KeyEvent.bytes, kbdFeed_key hs, Modifiers.next]
    split_ifs <;> rfl
  | brk key =>
    rw [KeyEvent.bytes, kbdFeed_brk hs, Modifiers.next]
    split_ifs <;> rfl
  | extMake key => rw [KeyEvent.bytes, kbdFeed_extMake hs, Modifiers.next]
  | extBreak key =>
    rw [KeyEvent.bytes, kbdFeed_extBreak hs, kbdFeed_key hs, Modifiers.next]
    split_ifs with hshift
    · have hheld : s.mods.shift = true := by
        rw [Harmless, if_pos hshift] at h
        exact h
      exact congrArg (fun b => Modifiers.mk b s.caps) hheld.symm
    · rfl

/-- An event is served exactly when it is harmless. -/
theorem eventServed_iff (hs : s.Idle) (event : KeyEvent) :
    EventServed s event (kbdFeed event.bytes s).1 (kbdFeed event.bytes s).2 ↔ Harmless s.mods event := by
  unfold EventServed
  rw [and_iff_right (event_idle hs event)]
  cases event with
  | make key =>
    simp only [KeyEvent.bytes, kbdFeed_key hs, Harmless, iff_true]
    intro hplain
    rw [if_neg hplain.1]
  | brk key => simp [KeyEvent.bytes, kbdFeed_brk hs, Harmless, Silent]
  | extMake key => simp [KeyEvent.bytes, kbdFeed_extMake hs, Harmless, Silent]
  | extBreak key =>
    simp only [KeyEvent.bytes, kbdFeed_extBreak hs, kbdFeed_key hs, Harmless]
    split_ifs
    · constructor
      · rintro ⟨-, hmods⟩
        exact congrArg Modifiers.shift hmods.symm
      · intro hheld
        exact ⟨by simp [Silent], congrArg (fun b => Modifiers.mk b s.caps) hheld.symm⟩
    · simp [Silent]

end

/-! ## Streams -/

/-- A stream of key events is served from first to last exactly when each of its extended breaks names a key
without a character, or a shift key that is held. -/
theorem kbd_stream_served_iff {s : Ps2KbState} (hs : s.Idle) (events : List KeyEvent) :
    StreamServed s events ↔ StreamHarmless s.mods events := by
  induction events generalizing s with
  | nil => exact Iff.rfl
  | cons event events ih =>
    rw [StreamServed, StreamHarmless, eventServed_iff hs]
    refine and_congr_right fun h => ?_
    rw [ih (event_idle hs event), event_mods hs h]

/-- `ps2_state` at boot. -/
def ps2State : Ps2KbState := ⟨false, false, false, false⟩

/-- Shift and a letter, with an arrow key pressed and let go between. -/
theorem kbd_stream_served_iff_arrow :
    StreamServed ps2State [.make 0x12, .extMake 0x6B, .extBreak 0x11, .make 0x1C, .brk 0x1C] ↔
      StreamHarmless ⟨false, false⟩ [.make 0x12, .extMake 0x6B, .extBreak 0x11, .make 0x1C, .brk 0x1C] :=
  kbd_stream_served_iff (s := ps2State) ⟨rfl, rfl⟩ _

/-- The break of the keypad's enter key, on a machine just started, types a line feed. -/
theorem kbd_enter_break_types : ¬StreamServed ps2State [.extMake 0x5A, .extBreak 0x5A] := by
  intro h
  have hsilent := h.2.1.2.1
  exact absurd (hsilent 0x0A (by decide)) (by decide)

end Icarus.Drivers
