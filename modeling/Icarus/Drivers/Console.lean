/-
The text console (shellio.c): where `write_c` stores and how it moves the cursor, over any text printed
through the shared cursor and over the writes of the system call, whose offset is not checked.
-/
import Icarus.Memory.StructPage

namespace Icarus.Drivers

open Icarus.Base Icarus.Memory

/-! ## The screen -/

/-- `COLS`. -/
def cols : Nat := 80

/-- `ROWS`. -/
def rows : Nat := 25

/-- `videoMemStart`. -/
def videoMemStart : Nat := 0xB8000 + kernelVma

/-- `videoMemEnd`. -/
def videoMemEnd : Nat := 0xB8000 + cols * rows * 2 + kernelVma

/-- `cursor`; its fields are 16 bit variables. -/
structure Cursor where
  x : Nat
  y : Nat
  deriving DecidableEq, Repr

/-- The character `\n`. -/
def newline : BitVec 8 := 0x0A

/-- The character `\r`. -/
def carriageReturn : BitVec 8 := 0x0D

/-! ## Writing -/

/-- `move_cursor`. Both parts of the offset are taken by `ROWS`. -/
def moveCursor (offset : Nat) (cur : Cursor) : Cursor :=
  ⟨(cur.x + offset % rows) % cols, (cur.y + offset / rows) % rows⟩

/-- `new_lines`. -/
def newLines (count : Nat) (cur : Cursor) : Cursor := ⟨0, u16 (cur.y + count)⟩

/-- `write_c`: the byte it stores, with its address, and the cursor behind the character. -/
def writeC (c : BitVec 8) (cur : Cursor) : Option (Nat × BitVec 8) × Cursor :=
  if c = newline then (none, newLines 1 cur)
  else if c = carriageReturn then (none, { cur with x := 0 })
  else (some (videoMemStart + (cur.x + cur.y * cols) * 2, c), moveCursor 1 cur)

/-- Characters printed one after the other (`write_str`, and the loop of `write_str_len`): the stores, and the
cursor at the end. -/
def writeStr : (text : List (BitVec 8)) → Cursor → List (Nat × BitVec 8) × Cursor
  | [], cur => ([], cur)
  | c :: text, cur =>
    let (store, cur) := writeC c cur
    let (stores, cur) := writeStr text cur
    (store.toList ++ stores, cur)

/-- The cursor `write_str_len` starts from. -/
def strLenCursor (offset : Nat) : Cursor := ⟨u16 (offset % cols), u16 (offset / cols)⟩

/-- `write_str_len`, given the characters it reads from the caller's buffer. -/
def writeStrLen (str : List (BitVec 8)) (offset : Nat) : List (Nat × BitVec 8) :=
  (writeStr str (strLenCursor offset)).1

/-- "Init Shell: ". -/
def initShell : List (BitVec 8) := [0x49, 0x6E, 0x69, 0x74, 0x20, 0x53, 0x68, 0x65, 0x6C, 0x6C, 0x3A, 0x20]

/-- `shellio_init`: the shared cursor. -/
def shellioInit (startingText : List (BitVec 8)) : List (Nat × BitVec 8) × Cursor :=
  writeStr (initShell ++ startingText) ⟨0, 0⟩

/-! ## Confinement -/

/-- A place on the screen. -/
def Cursor.OnScreen (cur : Cursor) : Prop := cur.x < cols ∧ cur.y < rows

/-- The stored byte belongs to the text buffer. -/
def InVideo (store : Nat × BitVec 8) : Prop := videoMemStart ≤ store.1 ∧ store.1 < videoMemEnd

/-- While the text is printed, the cursor stays on the screen and every store in the text buffer. -/
def Confined : (text : List (BitVec 8)) → Cursor → Prop
  | [], cur => cur.OnScreen
  | c :: text, cur =>
    cur.OnScreen ∧ (∀ store ∈ (writeC c cur).1, InVideo store) ∧ Confined text (writeC c cur).2

theorem Confined.append {s t : List (BitVec 8)} {cur : Cursor} :
    Confined (s ++ t) cur ↔ Confined s cur ∧ Confined t (writeStr s cur).2 := by
  induction s generalizing cur with
  | nil =>
    refine ⟨fun h => ⟨?_, h⟩, fun h => h.2⟩
    cases t with
    | nil => exact h
    | cons c t => exact h.1
  | cons c s ih => simp only [List.cons_append, Confined, writeStr, ih, and_assoc]

/-- A confined text has its stores in the text buffer. -/
theorem Confined.stores {text : List (BitVec 8)} {cur : Cursor} (h : Confined text cur) :
    ∀ store ∈ (writeStr text cur).1, InVideo store := by
  induction text generalizing cur with
  | nil => intro store hs; cases hs
  | cons c text ih =>
    intro store hs
    rcases List.mem_append.1 hs with hs | hs
    · exact h.2.1 store (Option.mem_toList.1 hs)
    · exact ih h.2.2 store hs

theorem inVideo_of_onScreen {cur : Cursor} (h : cur.OnScreen) (c : BitVec 8) :
    InVideo (videoMemStart + (cur.x + cur.y * cols) * 2, c) := by
  obtain ⟨hx, hy⟩ := h
  unfold InVideo videoMemEnd videoMemStart
  unfold rows at hy ⊢
  unfold cols at hx ⊢
  omega

/-- What one character does to a cursor on the screen: a newline moves it down a row, and nothing moves it up. -/
theorem writeC_cursor {cur : Cursor} (h : cur.OnScreen) (c : BitVec 8) :
    (writeC c cur).2.x < cols ∧ (writeC c cur).2.y = cur.y + [c].count newline := by
  obtain ⟨hx, hy⟩ := h
  unfold rows at hy
  unfold cols at hx
  unfold writeC
  split_ifs with h1 h2
  · subst h1
    exact ⟨Nat.zero_lt_succ 79, u16_of_lt (by omega)⟩
  · rw [List.count_singleton, if_neg (by simpa using h1)]
    exact ⟨Nat.zero_lt_succ 79, rfl⟩
  · rw [List.count_singleton, if_neg (by simpa using h1)]
    exact ⟨Nat.mod_lt _ (by decide), Nat.mod_eq_of_lt hy⟩

theorem writeC_store {cur : Cursor} (h : cur.OnScreen) (c : BitVec 8) :
    ∀ store ∈ (writeC c cur).1, InVideo store := by
  unfold writeC
  split_ifs
  · intro store hs; cases hs
  · intro store hs; cases hs
  · rintro store ⟨rfl⟩
    exact inVideo_of_onScreen h c

/-- A text is confined exactly when its newlines do not lead off the screen. -/
theorem confined_iff {text : List (BitVec 8)} {cur : Cursor} (hx : cur.x < cols) :
    Confined text cur ↔ cur.y + text.count newline < rows := by
  induction text generalizing cur with
  | nil => exact ⟨fun h => h.2, fun h => ⟨hx, h⟩⟩
  | cons c text ih =>
    have hcount : (c :: text).count newline = [c].count newline + text.count newline := by
      rw [← List.singleton_append, List.count_append]
    rw [hcount]
    constructor
    · rintro ⟨hon, -, hrest⟩
      obtain ⟨hx', hy'⟩ := writeC_cursor hon c
      rw [ih hx', hy'] at hrest
      omega
    · intro hlt
      have hon : cur.OnScreen := ⟨hx, by omega⟩
      obtain ⟨hx', hy'⟩ := writeC_cursor hon c
      refine ⟨hon, writeC_store hon c, ?_⟩
      rw [ih hx', hy']
      omega

/-- The console is confined exactly as long as no more than 24 newlines have been printed since `shellio_init`,
its own text included, and a write of the system call exactly when the row of its offset and its newlines stay
below the last row. -/
theorem console_confined_iff (startingText text str : List (BitVec 8)) (offset : Nat) :
    (Confined (initShell ++ startingText) ⟨0, 0⟩ ∧ Confined text (shellioInit startingText).2 ↔
      (startingText ++ text).count newline < rows) ∧
    (Confined str (strLenCursor offset) ↔ offset / cols % 2 ^ 16 + str.count newline < rows) := by
  constructor
  · have hinit : initShell.count newline = 0 := by decide
    rw [shellioInit, ← Confined.append, confined_iff (by decide), List.append_assoc, List.count_append, hinit]
    simp only [Nat.zero_add]
  · have hx : (strLenCursor offset).x < cols := lt_of_le_of_lt (Nat.mod_le _ _) (Nat.mod_lt _ (by decide))
    rw [confined_iff hx]
    rfl

/-- One character at offset 2000 lands behind the text buffer. -/
theorem write_str_len_escapes : ¬∀ store ∈ writeStrLen [0x61] 2000, InVideo store := by
  intro h
  have hout := (h (videoMemEnd, 0x61) (by decide)).2
  exact absurd hout (lt_irrefl _)

end Icarus.Drivers
