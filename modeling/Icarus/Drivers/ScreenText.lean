/-
What a printed text leaves on the screen (shellio.c): the cell of each character, over texts of any length, when one is
stored outside of the text buffer, and which texts can be read back from the rows.
-/
import Mathlib.Data.List.DropRight
import Icarus.Base.Stores
import Icarus.Drivers.Console

namespace Icarus.Drivers

open Icarus.Base Icarus.Memory

/-! ## Places -/

/-- A character that takes a cell. -/
def Printable (c : BitVec 8) : Bool := c ≠ newline ∧ c ≠ carriageReturn

theorem ne_of_printable {c : BitVec 8} (hc : Printable c = true) : c ≠ newline ∧ c ≠ carriageReturn := by
  simpa [Printable] using hc

/-- The characters since the last newline or carriage return. -/
def column (text : List (BitVec 8)) : Nat := (text.rtakeWhile Printable).length

/-- The newlines before the last character that took a cell. -/
def settled (text : List (BitVec 8)) : Nat := (text.rdropWhile fun c => !Printable c).count newline

/-- The newlines behind it. -/
def pending (text : List (BitVec 8)) : Nat := (text.rtakeWhile fun c => !Printable c).count newline

theorem settled_add_pending (text : List (BitVec 8)) : settled text + pending text = text.count newline := by
  unfold settled pending
  rw [← List.count_append, List.rdropWhile_append_rtakeWhile]

section
variable {text : List (BitVec 8)} {c : BitVec 8}

theorem column_snoc (hc : Printable c = true) : column (text ++ [c]) = column text + 1 := by
  unfold column
  rw [List.rtakeWhile_concat_pos _ _ _ hc, List.length_append]
  rfl

theorem column_snoc_break (hc : Printable c = false) : column (text ++ [c]) = 0 := by
  unfold column
  rw [List.rtakeWhile_concat_neg _ _ _ (by simp [hc])]
  rfl

theorem pending_snoc (hc : Printable c = true) : pending (text ++ [c]) = 0 := by
  unfold pending
  rw [List.rtakeWhile_concat_neg _ _ _ (by simp [hc])]
  rfl

theorem pending_snoc_break (hc : Printable c = false) : pending (text ++ [c]) = pending text + [c].count newline := by
  unfold pending
  rw [List.rtakeWhile_concat_pos _ _ _ (by simp [hc]), List.count_append]

theorem settled_snoc (hc : Printable c = true) : settled (text ++ [c]) = settled text + pending text := by
  have hcount : [c].count newline = 0 := by
    rw [List.count_singleton, if_neg]
    simpa using (ne_of_printable hc).1
  have h := settled_add_pending (text ++ [c])
  rw [pending_snoc hc, List.count_append, hcount, ← settled_add_pending text] at h
  exact h

theorem settled_snoc_break (hc : Printable c = false) : settled (text ++ [c]) = settled text := by
  unfold settled
  rw [List.rdropWhile_concat_pos _ _ _ (by simp [hc])]

end

/-! ## The cursor -/

/-- A newline or a carriage return stores nothing. -/
theorem writeC_break {c : BitVec 8} (hc : Printable c = false) (cur : Cursor) : (writeC c cur).1 = none := by
  by_cases hnl : c = newline
  · rw [writeC, if_pos hnl]
  · have hcr : c = carriageReturn := by simpa [Printable, hnl] using hc
    rw [writeC, if_neg hnl, if_pos hcr]

theorem writeStr_append (text text' : List (BitVec 8)) (cur : Cursor) :
    writeStr (text ++ text') cur =
      ((writeStr text cur).1 ++ (writeStr text' (writeStr text cur).2).1, (writeStr text' (writeStr text cur).2).2) := by
  induction text generalizing cur with
  | nil => rfl
  | cons c text ih => simp only [List.cons_append, writeStr, ih, List.append_assoc]

theorem writeStr_singleton (c : BitVec 8) (cur : Cursor) :
    writeStr [c] cur = ((writeC c cur).1.toList, (writeC c cur).2) := by
  simp only [writeStr, List.append_nil]

/-- Where the cursor is behind a text: the row goes round whenever a character takes a cell, and newlines go on from
there. -/
def cursorAt (text : List (BitVec 8)) : Cursor := ⟨column text % cols, settled text % rows + pending text⟩

/-- Newlines in a row do not overflow the row of the cursor. -/
def RowsFit (text : List (BitVec 8)) : Prop := ∀ before, before <+: text → pending before + rows ≤ 2 ^ 16

theorem writeC_cursorAt {text : List (BitVec 8)} {c : BitVec 8} (hfit : pending (text ++ [c]) + rows ≤ 2 ^ 16) :
    (writeC c (cursorAt text)).2 = cursorAt (text ++ [c]) := by
  unfold cursorAt
  by_cases hc : Printable c = true
  · obtain ⟨hnl, hcr⟩ := ne_of_printable hc
    rw [column_snoc hc, pending_snoc hc, settled_snoc hc, writeC, if_neg hnl, if_neg hcr]
    simp only [moveCursor, rows, cols, Cursor.mk.injEq]
    omega
  · have hbreak : Printable c = false := by simpa using hc
    rw [column_snoc_break hbreak, settled_snoc_break hbreak]
    rw [pending_snoc_break hbreak] at hfit ⊢
    by_cases hnl : c = newline
    · subst hnl
      rw [writeC, if_pos rfl]
      have hone : [newline].count newline = 1 := rfl
      rw [hone] at hfit ⊢
      simp only [newLines, Cursor.mk.injEq]
      refine ⟨rfl, ?_⟩
      rw [u16_of_lt]
      · rfl
      · have := Nat.mod_lt (settled text) (show 0 < rows by decide)
        omega
    · have hcr : c = carriageReturn := by simpa [Printable, hnl] using hbreak
      subst hcr
      rw [writeC, if_neg (by decide), if_pos rfl]
      rfl

theorem writeStr_cursorAt {text : List (BitVec 8)} (hfit : RowsFit text) : (writeStr text ⟨0, 0⟩).2 = cursorAt text := by
  induction text using List.reverseRecOn with
  | nil => rfl
  | append_singleton text c ih =>
    have hbefore : RowsFit text := fun before h => hfit before (h.trans (List.prefix_append text [c]))
    rw [writeStr_append, writeStr_singleton, ih hbefore]
    exact writeC_cursorAt (hfit _ (List.prefix_refl _))

/-- Whatever was printed since the start, the next character is stored in the column that is left over from the width,
and in the text buffer if and only if no 25th newline, counted from the start, was printed since the character before:
then its row is that of the newlines counted round. Otherwise it goes to a row below the screen. -/
theorem char_placed {text : List (BitVec 8)} {c : BitVec 8} (hc : Printable c = true) (hfit : RowsFit text) :
    ∃ store, (writeC c (writeStr text ⟨0, 0⟩).2).1 = some store ∧ store.2 = c ∧
      store.1 = videoMemStart + (column text % cols + (settled text % rows + pending text) * cols) * 2 ∧
      (InVideo store ↔ text.count newline / rows = settled text / rows) := by
  obtain ⟨hnl, hcr⟩ := ne_of_printable hc
  rw [writeStr_cursorAt hfit, writeC, if_neg hnl, if_neg hcr]
  refine ⟨_, rfl, rfl, rfl, ?_⟩
  have hx : column text % cols < cols := Nat.mod_lt _ (by decide)
  rw [← settled_add_pending]
  unfold InVideo videoMemEnd videoMemStart cursorAt
  simp only
  unfold rows
  unfold cols at hx ⊢
  constructor
  · rintro ⟨-, hlt⟩
    omega
  · intro h
    constructor
    · omega
    · omega

/-- No prefix ends in more newlines than the text has. -/
theorem pending_le_count {text before : List (BitVec 8)} (h : before <+: text) : pending before ≤ text.count newline := by
  have hcount : before.count newline ≤ text.count newline := h.sublist.count_le newline
  have := settled_add_pending before
  omega

/-! ## Characters lost -/

instance (store : Nat × BitVec 8) : Decidable (InVideo store) := inferInstanceAs (Decidable (_ ∧ _))

/-- The stores outside of the text buffer. -/
def escapes (text : List (BitVec 8)) : Nat := (writeStr text ⟨0, 0⟩).1.countP fun store => ¬InVideo store

theorem escapes_snoc (text : List (BitVec 8)) (c : BitVec 8) :
    escapes (text ++ [c]) =
      escapes text + (writeC c (writeStr text ⟨0, 0⟩).2).1.toList.countP fun store => ¬InVideo store := by
  unfold escapes
  rw [writeStr_append, writeStr_singleton, List.countP_append]

/-- No more than 25 newlines stand between two characters. -/
def Spaced (text : List (BitVec 8)) : Prop := ∀ before, before <+: text → pending before ≤ rows

theorem Spaced.rowsFit {text : List (BitVec 8)} (h : Spaced text) : RowsFit text := by
  intro before hpre
  have := h before hpre
  unfold rows at this ⊢
  omega

/-- One character is lost for each 25 newlines: of any text without more than 25 newlines in a row, as many characters are
stored outside of the text buffer as 25 goes into the number of newlines before its last character. -/
theorem escapes_eq {text : List (BitVec 8)} (h : Spaced text) : escapes text = settled text / rows := by
  induction text using List.reverseRecOn with
  | nil => rfl
  | append_singleton text c ih =>
    have hbefore : Spaced text := fun before hpre => h before (hpre.trans (List.prefix_append text [c]))
    rw [escapes_snoc, ih hbefore]
    by_cases hc : Printable c = true
    · obtain ⟨store, hstore, -, -, hin⟩ := char_placed hc hbefore.rowsFit
      have hgap := h text (List.prefix_append text [c])
      rw [hstore, settled_snoc hc]
      rw [← settled_add_pending] at hin
      unfold rows at hin hgap ⊢
      by_cases hvideo : InVideo store
      · have hzero : (some store).toList.countP (fun store => ¬InVideo store) = 0 := by simp [hvideo]
        rw [hzero, Nat.add_zero, hin.1 hvideo]
      · have hone : (some store).toList.countP (fun store => ¬InVideo store) = 1 := by simp [hvideo]
        rw [hin] at hvideo
        rw [hone]
        omega
    · have hbreak : Printable c = false := by simpa using hc
      rw [writeC_break hbreak, settled_snoc_break hbreak]
      rfl

theorem escapes_eq_one : escapes (List.replicate 25 newline ++ [0x61]) = 1 :=
  escapes_eq fun _ hpre => (pending_le_count hpre).trans (by decide)

/-! ## Reading back -/

/-- The address of the character in a cell. -/
def cellAddr (x y : Nat) : Nat := videoMemStart + (x + y * cols) * 2

theorem cellAddr_inj {x y x' y' : Nat} (hx : x < cols) (hx' : x' < cols) :
    cellAddr x y = cellAddr x' y' ↔ x = x' ∧ y = y' := by
  unfold cellAddr cols at *
  constructor
  · intro h
    omega
  · rintro ⟨rfl, rfl⟩
    rfl

/-- The characters of a row, up to the first cell that is empty. -/
def screenRow (m : Mem) (y : Nat) : List (BitVec 8) :=
  ((List.range cols).map fun x => m (cellAddr x y)).takeWhile (· ≠ 0)

/-- The memory after a text was printed on it from the start. -/
def printed (m : Mem) (text : List (BitVec 8)) : Mem := storeAll m (writeStr text ⟨0, 0⟩).1

/-- The lines, with newlines between them. -/
def joinLines (lines : List (List (BitVec 8))) : List (BitVec 8) := [newline].intercalate lines

/-- A line of characters that take cells, as it stands in a C string. -/
def IsLine (line : List (BitVec 8)) : Prop := ∀ c ∈ line, Printable c = true ∧ c ≠ 0

/-- No character stands on the screen. -/
def Cleared (m : Mem) : Prop := ∀ x y, x < cols → y < rows → m (cellAddr x y) = 0

/-- One character of a line that fits. -/
theorem writeC_cell {c : BitVec 8} (hc : Printable c = true) {x y : Nat} (hx : x < cols) (hy : y < rows) :
    writeC c ⟨x % cols, y⟩ = (some (cellAddr x y, c), ⟨(x + 1) % cols, y⟩) := by
  obtain ⟨hnl, hcr⟩ := ne_of_printable hc
  rw [writeC, if_neg hnl, if_neg hcr, Nat.mod_eq_of_lt hx]
  have hrow : (y + 1 / rows) % rows = y := Nat.mod_eq_of_lt hy
  rw [moveCursor, hrow]
  rfl

/-- A line that fits into what is left of its row. -/
theorem writeStr_line {line : List (BitVec 8)} (hline : IsLine line) {x y : Nat} (hfit : x + line.length ≤ cols)
    (hy : y < rows) (m : Mem) :
    (writeStr line ⟨x % cols, y⟩).2.y = y ∧
      ∀ x' y', x' < cols → storeAll m (writeStr line ⟨x % cols, y⟩).1 (cellAddr x' y') =
        if y' = y ∧ x ≤ x' ∧ x' < x + line.length then line.getD (x' - x) 0 else m (cellAddr x' y') := by
  induction line generalizing x m with
  | nil => exact ⟨rfl, fun x' y' _ => by rw [if_neg (by rintro ⟨-, h, h'⟩; exact absurd h' (by simpa using h))]; rfl⟩
  | cons c line ih =>
    rw [List.length_cons] at hfit
    have hx : x < cols := by omega
    have hcell := writeC_cell (hline c List.mem_cons_self).1 hx hy
    obtain ⟨hrow, hcells⟩ := ih (fun d hd => hline d (List.mem_cons_of_mem c hd)) (x := x + 1) (by omega)
      (Function.update m (cellAddr x y) c)
    simp only [writeStr, hcell]
    refine ⟨hrow, fun x' y' hx' => ?_⟩
    show storeAll (Function.update m (cellAddr x y) c) (writeStr line ⟨(x + 1) % cols, y⟩).1 (cellAddr x' y') = _
    rw [hcells x' y' hx']
    by_cases hhere : x' = x ∧ y' = y
    · obtain ⟨rfl, rfl⟩ := hhere
      rw [if_neg (by omega), Function.update_self, if_pos (by rw [List.length_cons]; omega), Nat.sub_self]
      rfl
    · have hne : cellAddr x' y' ≠ cellAddr x y := fun h => hhere ((cellAddr_inj hx' hx).1 h)
      rw [Function.update_of_ne hne]
      by_cases hin : y' = y ∧ x + 1 ≤ x' ∧ x' < x + 1 + line.length
      · rw [if_pos hin, if_pos (by rw [List.length_cons]; omega), show x' - x = x' - (x + 1) + 1 by omega]
        rfl
      · rw [if_neg hin, if_neg (by rw [List.length_cons]; omega)]

/-- A line from the start of a row. -/
theorem writeStr_row {line : List (BitVec 8)} (hline : IsLine line) {y : Nat} (hfit : line.length ≤ cols) (hy : y < rows)
    (m : Mem) : (writeStr line ⟨0, y⟩).2.y = y ∧
      ∀ x' y', x' < cols → storeAll m (writeStr line ⟨0, y⟩).1 (cellAddr x' y') =
        if y' = y ∧ x' < line.length then line.getD x' 0 else m (cellAddr x' y') := by
  obtain ⟨hrow, hcells⟩ := writeStr_line hline (x := 0) (by omega) hy m
  refine ⟨hrow, fun x' y' hx' => (hcells x' y' hx').trans ?_⟩
  rw [Nat.zero_add]
  exact if_congr (by simp) rfl rfl

theorem writeStr_newline (text : List (BitVec 8)) {cur : Cursor} (hy : cur.y + 1 < 2 ^ 16) :
    writeStr (newline :: text) cur = writeStr text ⟨0, cur.y + 1⟩ := by
  have hstep : writeC newline cur = (none, ⟨0, cur.y + 1⟩) := by
    rw [writeC, if_pos rfl, newLines, u16_of_lt hy]
  simp only [writeStr, hstep]
  rfl

/-- Lines that fit into the rows from `y` on. -/
theorem writeStr_lines {lines : List (List (BitVec 8))} (hlines : ∀ line ∈ lines, IsLine line ∧ line.length ≤ cols)
    {y : Nat} (hfit : y + lines.length ≤ rows) (m : Mem) {x' y' : Nat} (hx' : x' < cols) :
    storeAll m (writeStr (joinLines lines) ⟨0, y⟩).1 (cellAddr x' y') =
      if y ≤ y' ∧ x' < (lines.getD (y' - y) []).length then (lines.getD (y' - y) []).getD x' 0
      else m (cellAddr x' y') := by
  unfold joinLines
  induction lines generalizing y m with
  | nil => rw [if_neg (by simp)]; rfl
  | cons line lines ih =>
    rw [List.length_cons] at hfit
    obtain ⟨hline, hlen⟩ := hlines line List.mem_cons_self
    obtain ⟨hrow, hcells⟩ := writeStr_row hline (y := y) hlen (by omega) m
    cases lines with
    | nil =>
      rw [List.intercalate_singleton, hcells x' y' hx']
      rcases Nat.lt_trichotomy y' y with hlt | rfl | hgt
      · rw [if_neg (by omega), if_neg (by omega)]
      · rw [Nat.sub_self]
        exact if_congr (by simp) rfl rfl
      · rw [if_neg (by omega), if_neg]
        rw [show y' - y = (y' - y - 1) + 1 by omega]
        simp
    | cons line' lines =>
      have hy : (writeStr line ⟨0, y⟩).2.y + 1 < 2 ^ 16 := by
        rw [hrow]
        unfold rows at hfit
        omega
      rw [List.intercalate_cons_cons, List.append_assoc, writeStr_append, List.singleton_append, writeStr_newline _ hy,
        hrow, storeAll_append]
      rw [ih (fun l hl => hlines l (List.mem_cons_of_mem line hl)) (by omega), hcells x' y' hx']
      rcases Nat.lt_trichotomy y' y with hlt | rfl | hgt
      · rw [if_neg (by omega), if_neg (by omega), if_neg (by omega)]
      · rw [if_neg (by omega), Nat.sub_self]
        exact if_congr (by simp) rfl rfl
      · rw [show y' - y = y' - (y + 1) + 1 by omega, List.getD_cons_succ, if_neg (c := y' = y ∧ _) (by omega)]
        exact if_congr (by omega) rfl rfl

/-- The row of a line that fits on a screen that was clear. -/
theorem screenRow_eq {m : Mem} {line : List (BitVec 8)} (hline : IsLine line) (hlen : line.length ≤ cols) {y : Nat}
    (hcells : ∀ x, x < cols → m (cellAddr x y) = if x < line.length then line.getD x 0 else 0) :
    screenRow m y = line := by
  have hrow : (List.range cols).map (fun x => m (cellAddr x y)) = line ++ List.replicate (cols - line.length) 0 := by
    refine List.ext_getElem (by simp; omega) fun x hx hx' => ?_
    rw [List.length_map, List.length_range] at hx
    rw [List.getElem_map, List.getElem_range, hcells x hx, List.getElem_append]
    split_ifs with h
    · exact List.getD_eq_getElem _ _ h
    · rw [List.getElem_replicate]
  unfold screenRow
  rw [hrow, List.takeWhile_append_of_pos fun c hc => by simpa using (hline c hc).2, List.takeWhile_replicate]
  simp

/-- On a clear screen the lines of a text can be read back from the rows if and only if there are no more of them than rows
and none is longer than a row. -/
theorem screen_reads_back_iff {m : Mem} (hclear : Cleared m) {lines : List (List (BitVec 8))}
    (hlines : ∀ line ∈ lines, IsLine line) :
    (∃ n ≤ rows, (List.range n).map (screenRow (printed m (joinLines lines))) = lines) ↔
      lines.length ≤ rows ∧ ∀ line ∈ lines, line.length ≤ cols := by
  constructor
  · rintro ⟨n, hn, hread⟩
    constructor
    · rw [← hread, List.length_map, List.length_range]
      exact hn
    · intro line hline
      rw [← hread] at hline
      obtain ⟨y, -, rfl⟩ := List.mem_map.1 hline
      refine (List.takeWhile_prefix _).length_le.trans ?_
      rw [List.length_map, List.length_range]
  · rintro ⟨hrows, hcols⟩
    refine ⟨lines.length, hrows, List.ext_getElem (by simp) fun y hy hy' => ?_⟩
    rw [List.getElem_map, List.getElem_range]
    have hmem : lines[y] ∈ lines := List.getElem_mem hy'
    refine screenRow_eq (hlines _ hmem) (hcols _ hmem) fun x hx => ?_
    have hcell : printed m (joinLines lines) (cellAddr x y) = _ :=
      writeStr_lines (fun l hl => ⟨hlines l hl, hcols l hl⟩) (y := 0) (by omega) m hx
    rw [Nat.sub_zero, List.getD_eq_getElem _ _ hy'] at hcell
    rw [hcell, hclear x y hx (by omega)]
    exact if_congr (by simp) rfl rfl

theorem screen_reads_back_iff_hi :
    ∃ n ≤ rows, (List.range n).map (screenRow (printed (fun _ => 0) (joinLines [[0x48, 0x69], [], [0x21]]))) =
      [[0x48, 0x69], [], [0x21]] :=
  (screen_reads_back_iff (fun _ _ _ _ => rfl) (by unfold IsLine; decide)).2 (by decide)

end Icarus.Drivers
