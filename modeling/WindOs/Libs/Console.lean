import Mathlib.Data.List.Induction
import WindOs.Data.Rows
import WindOs.Libs.Vga

namespace WindOs.Libs

open Data

namespace Console

/-! # The screen as the end of a text

What was printed is a text of any length in rows of 80 characters, and the screen
is to show the last 25 of them.
-/

def Glyph.isNewline (glyph : Glyph) : Bool := glyph.c = 10#8

/-- A newline, or a character with a code from 32 to 127. -/
def Glyph.Printed (glyph : Glyph) : Prop :=
  glyph.c = 10#8 ∨ 32 ≤ glyph.c.toNat ∧ glyph.c.toNat ≤ 127

/-- The cell of a glyph, with its colours above its character, or a white blank on
black where there is none. -/
def cellOf : Option Glyph → BitVec 16
  | some glyph =>
      BitVec.ofNat 16 ((glyph.back.ctorIdx * 16 + glyph.front.ctorIdx) * 256 + glyph.c.toNat)
  | none => BitVec.ofNat 16 (15 * 256 + 32)

theorem charMix_eq {glyph : Glyph} (upper : glyph.c.toNat ≤ 127) :
    charMix glyph.back glyph.front glyph.c = cellOf (some glyph) := by
  have mix : ∀ back front : Color,
      (BitVec.ofNat 16 back.ctorIdx <<< 4) ||| (BitVec.ofNat 16 front.ctorIdx &&& 0xf#16) =
        BitVec.ofNat 16 (back.ctorIdx * 16 + front.ctorIdx) := by
    intro back front
    cases back <;> cases front <;> rfl
  have positive : glyph.c.msb = false := BitVec.msb_eq_false_iff_two_mul_lt.mpr (by omega)
  have char : glyph.c.toNat < 2 ^ 8 := glyph.c.isLt
  rw [charMix, mix, BitVec.signExtend_eq_setWidth_of_msb_false positive, cellOf]
  generalize glyph.back.ctorIdx * 16 + glyph.front.ctorIdx = colours
  apply BitVec.eq_of_toNat_eq
  have shifted : (colours % 2 ^ 16) <<< 8 % 2 ^ 16 = (colours % 2 ^ 8) <<< 8 := by
    simp only [Nat.shiftLeft_eq]
    omega
  simp only [BitVec.toNat_or, BitVec.toNat_shiftLeft, BitVec.toNat_ofNat, BitVec.toNat_setWidth]
  rw [shifted, Nat.mod_eq_of_lt (by omega : glyph.c.toNat < 2 ^ 16),
    ← Nat.shiftLeft_add_eq_or_of_lt char, Nat.shiftLeft_eq]
  omega

/-- What stands in a row and a column of the screen. -/
def shown (rows : List (List Glyph)) (r col : Nat) : Option Glyph :=
  (lastRows 25 rows)[r]?.bind fun row => row[col]?

theorem shown_eq (rows : List (List Glyph)) (r col : Nat) :
    shown rows r col = rows[rows.length - 25 + r]?.bind fun row => row[col]? := by
  simp [shown, lastRows, List.getElem?_drop]

/-- The screen and the cursor are those of a text whose last row is `row`. -/
structure Shows (console : Console) (front : List (List Glyph)) (row : List Glyph) : Prop where
  x : console.cursorX = row.length
  y : console.cursorY = min front.length 24
  cells : ∀ r < 25, ∀ col < 80,
    console.cells.value (r * 80 + col) = cellOf (shown (front ++ [row]) r col)

variable {console : Console} {front : List (List Glyph)} {row : List Glyph}

theorem Shows.moveCursor (shows : console.Shows front row) : console.moveCursor.Shows front row :=
  ⟨shows.x, shows.y, shows.cells⟩

/-- A new row is at the bottom, or below what was the bottom before everything moved up. -/
theorem shown_newRow {r col : Nat} (onScreen : r < 25) :
    shown (front ++ [row, []]) r col =
      if front.length < 24 then shown (front ++ [row]) r col
      else if r < 24 then shown (front ++ [row]) (r + 1) col else none := by
  have split : front ++ [row, []] = (front ++ [row]) ++ [[]] := by simp
  rw [split]
  generalize lines : front ++ [row] = text
  have length : text.length = front.length + 1 := by simp [← lines]
  simp only [shown_eq, List.length_append, List.length_singleton]
  by_cases room : front.length < 24
  · have first : text.length + 1 - 25 + r = r := by omega
    have before : text.length - 25 + r = r := by omega
    rw [if_pos room, first, before]
    by_cases inside : r < text.length
    · rw [List.getElem?_append_left inside]
    · rw [List.getElem?_append_right (by omega), List.getElem?_eq_none (by omega : text.length ≤ r)]
      cases r - text.length with
      | zero => simp
      | succ => simp
  · rw [if_neg room]
    by_cases upper : r < 24
    · have moved : text.length + 1 - 25 + r = text.length - 25 + (r + 1) := by omega
      rw [if_pos upper, moved, List.getElem?_append_left (by omega)]
    · have bottom : text.length + 1 - 25 + r = text.length := by omega
      rw [if_neg upper, bottom, List.getElem?_append_right le_rfl]
      simp

theorem Shows.newRow (shows : console.Shows front row) :
    console.newRow.Shows (front ++ [row]) [] := by
  have y := shows.y
  have onScreen : console.cursorY < 25 := by omega
  refine ⟨newRow_cursorX, ?_, ?_⟩
  · rw [newRow_cursorY onScreen, List.length_append, List.length_singleton]
    omega
  · intro r upto col inRow
    have next : (console.cursorY + 1) % 2 ^ 8 = console.cursorY + 1 := by omega
    rw [List.append_assoc, List.singleton_append, shown_newRow upto]
    simp only [Console.newRow, next]
    by_cases room : front.length < 24
    · rw [if_pos room, scroll_above (by simp only; omega)]
      exact shows.cells r upto col inRow
    · rw [if_neg room, scroll_value (by simp only; omega)]
      by_cases upper : r < 24
      · have below : r * 80 + col < 24 * 80 := by omega
        have moved : r * 80 + col + 80 = (r + 1) * 80 + col := by omega
        rw [if_pos upper, if_pos below, moved]
        exact shows.cells (r + 1) (by omega) col inRow
      · have last : ¬ r * 80 + col < 24 * 80 := by omega
        have bottom : r * 80 + col < 25 * 80 := by omega
        rw [if_neg upper, if_neg last, if_pos bottom]
        decide

/-- The row that is written stands at the cursor. -/
theorem shown_extended {glyph : Glyph} {r col : Nat} (onScreen : r < 25) :
    shown (front ++ [row ++ [glyph]]) r col =
      if r = min front.length 24 ∧ col = row.length then some glyph
      else shown (front ++ [row]) r col := by
  simp only [shown_eq, List.length_append, List.length_singleton]
  by_cases here : r = min front.length 24
  · have last : front.length + 1 - 25 + r = front.length := by omega
    simp only [last, List.getElem?_append_right le_rfl, Nat.sub_self, List.getElem?_cons_zero,
      Option.bind_some]
    by_cases column : col = row.length
    · rw [if_pos ⟨here, column⟩, column, List.getElem?_concat_length]
    · rw [if_neg (fun both => column both.2)]
      by_cases inside : col < row.length
      · rw [List.getElem?_append_left inside]
      · rw [List.getElem?_eq_none (by simp only [List.length_append, List.length_singleton]; omega),
          List.getElem?_eq_none (by omega)]
  · rw [if_neg (fun both => here both.1)]
    by_cases above : front.length + 1 - 25 + r < front.length
    · rw [List.getElem?_append_left above, List.getElem?_append_left above]
    · rw [List.getElem?_eq_none (by simp only [List.length_append, List.length_singleton]; omega),
        List.getElem?_eq_none (by simp only [List.length_append, List.length_singleton]; omega)]

theorem Shows.putCell {glyph : Glyph} (shows : console.Shows front row) (short : row.length < 80)
    (upper : glyph.c.toNat ≤ 127) :
    (console.putCell (charMix glyph.back glyph.front glyph.c)).Shows front (row ++ [glyph]) := by
  have x := shows.x
  have y := shows.y
  refine ⟨?_, y, ?_⟩
  · simp only [Console.putCell, List.length_append, List.length_singleton]
    omega
  · intro r upto col inRow
    rw [shown_extended upto]
    by_cases here : r = min front.length 24 ∧ col = row.length
    · have cell : r * 80 + col = console.cursorY * 80 + console.cursorX := by
        rw [here.1, here.2, x, y]
      rw [if_pos here, cell, ← charMix_eq upper]
      exact Cells.set_value_self
    · have other : r * 80 + col ≠ console.cursorY * 80 + console.cursorX := by
        intro same
        apply here
        constructor <;> omega
      rw [if_neg here]
      exact (Cells.set_value_of_ne other).trans (shows.cells r upto col inRow)

theorem showChar_newline (back front : Color) :
    console.showChar back front 10#8 = console.newRow.moveCursor := by
  have backspace : ¬ (10#8 = 8#8 ∧ console.cursorX ≠ 0) := fun both => absurd both.1 (by decide)
  simp only [showChar, if_neg backspace, if_true]
  rfl

theorem showChar_printable {back front : Color} {c : CChar} (lower : 32 ≤ c.toNat)
    (upper : c.toNat ≤ 127) : console.showChar back front c =
      (if (console.putCell (charMix back front c)).cursorX ≥ 80 then
        (console.putCell (charMix back front c)).newRow
      else console.putCell (charMix back front c)).moveCursor := by
  have nonnegative : c.toInt = c.toNat := BitVec.toInt_eq_toNat_of_lt (by omega)
  have printable : c.toInt ≥ 32 := by omega
  have different : ∀ code : BitVec 8, code.toNat < 32 → c ≠ code := by
    intro code small same
    rw [same] at lower
    omega
  have backspace : ¬ (c = 8#8 ∧ console.cursorX ≠ 0) := fun both => different 8#8 (by decide) both.1
  simp only [showChar, if_neg backspace, if_neg (different 9#8 (by decide)),
    if_neg (different 10#8 (by decide)), if_pos printable]

theorem clearScreen_value {r col : Nat} (upto : r < 25) (inRow : col < 80) :
    console.clearScreen.cells.value (r * 80 + col) = blank := by
  have grid := Cells.foldl_grid 25 80 (fun (cells : Cells (BitVec 16)) k => cells.set (0 + k) blank)
    console.cells
  simp only [Nat.zero_add] at grid
  have filled := Cells.foldl_fill_value (25 * 80) 0 blank console.cells
  simp only [Nat.zero_add] at filled
  have inside : 0 ≤ r * 80 + col ∧ r * 80 + col < 25 * 80 := by omega
  simp only [clearScreen, moveCursor_cells, grid, filled, if_pos inside]

theorem clearScreen_shows : console.clearScreen.Shows [] [] := by
  refine ⟨rfl, rfl, ?_⟩
  intro r upto col inRow
  have empty : shown ([] ++ [[]]) r col = none := by
    rw [shown_eq]
    cases r <;> simp
  rw [clearScreen_value upto inRow, empty]
  decide

/-- The registers of the graphics controller point to the cursor. -/
def CursorShown (console : Console) : Prop :=
  console.high * 2 ^ 8 + console.low = console.cursorY * 80 + console.cursorX

theorem moveCursor_shown (x : console.cursorX < 80) (y : console.cursorY < 25) :
    console.moveCursor.CursorShown := by
  have whole := Nat.div_add_mod (console.cursorY * 80 + console.cursorX) (2 ^ 8)
  simp only [CursorShown, moveCursor]
  omega

theorem Shows.cursorShown (shows : console.Shows front row) (short : row.length < 80) :
    console.moveCursor.CursorShown := by
  have x := shows.x
  have y := shows.y
  exact moveCursor_shown (by omega) (by omega)

/-- A printable character extends the last row, and begins another one when that is full. -/
theorem Shows.showChar {glyph : Glyph} (shows : console.Shows front row) (short : row.length < 80)
    (lower : 32 ≤ glyph.c.toNat) (upper : glyph.c.toNat ≤ 127) :
    ∃ before last, front ++ extendRow 80 row glyph = before ++ [last] ∧ last.length < 80 ∧
      (console.showChar glyph.back glyph.front glyph.c).Shows before last ∧
      (console.showChar glyph.back glyph.front glyph.c).CursorShown := by
  have put := @Shows.putCell console front row glyph shows short upper
  have column := put.x
  rw [List.length_append, List.length_singleton] at column
  rw [showChar_printable lower upper]
  by_cases fits : row.length + 1 < 80
  · have inRow : ¬ (console.putCell (charMix glyph.back glyph.front glyph.c)).cursorX ≥ 80 := by omega
    rw [if_neg inRow]
    have length : (row ++ [glyph]).length < 80 := by simpa using fits
    exact ⟨front, row ++ [glyph], by rw [extendRow, if_pos fits], length, put.moveCursor,
      put.cursorShown length⟩
  · have full : (console.putCell (charMix glyph.back glyph.front glyph.c)).cursorX ≥ 80 := by omega
    rw [if_pos full]
    exact ⟨front ++ [row ++ [glyph]], [], by rw [extendRow, if_neg fits]; simp, by simp,
      put.newRow.moveCursor, put.newRow.cursorShown (by simp)⟩

/-- Character by character, the screen and the cursor follow the rows of the text. -/
theorem screen_shows_text (console : Console) (text : List Glyph)
    (printed : ∀ glyph ∈ text, glyph.Printed) :
    ∃ front row, rows 80 Glyph.isNewline text = front ++ [row] ∧ row.length < 80 ∧
      (console.clearScreen.print text).Shows front row ∧
      (console.clearScreen.print text).CursorShown := by
  induction text using List.reverseRecOn with
  | nil =>
      have empty : rows 80 Glyph.isNewline [] = [] ++ [[]] := by simp [rows, wrapLine]
      exact ⟨[], [], empty, by simp, clearScreen_shows, moveCursor_shown (by simp) (by simp)⟩
  | append_singleton text glyph ih =>
      have earlier : ∀ glyph ∈ text, glyph.Printed :=
        fun glyph member => printed glyph (List.mem_append_left _ member)
      obtain ⟨front, row, wrapped, short, shows, -⟩ := ih earlier
      obtain ⟨before, last, again, -, plain, breaks⟩ :=
        rows_append (by decide : 0 < 80) Glyph.isNewline text
      obtain ⟨rfl, rfl⟩ : front = before ∧ row = last := by
        simpa using wrapped.symm.trans again
      rw [print_append]
      obtain newline | ⟨lower, upper⟩ := printed glyph (by simp)
      · have isBreak : glyph.isNewline = true := by simp [Glyph.isNewline, newline]
        refine ⟨front ++ [row], [], ?_, by simp, ?_, ?_⟩
        · rw [breaks glyph isBreak]
          simp
        · simp only [print, List.foldl_cons, List.foldl_nil, newline, showChar_newline]
          exact shows.newRow.moveCursor
        · simp only [print, List.foldl_cons, List.foldl_nil, newline, showChar_newline]
          exact shows.newRow.cursorShown (by simp)
      · have isPlain : glyph.isNewline = false := by
          simp only [Glyph.isNewline, decide_eq_false_iff_not]
          intro same
          rw [same] at lower
          exact absurd lower (by decide)
        rw [plain glyph isPlain]
        exact shows.showChar short lower upper

theorem lastRows_append (front : List (List Glyph)) (row : List Glyph) :
    lastRows 25 (front ++ [row]) = front.drop (front.length - 24) ++ [row] := by
  have dropped : (front ++ [row]).length - 25 = front.length - 24 := by
    simp only [List.length_append, List.length_singleton]
    omega
  rw [lastRows, dropped, List.drop_append_of_le_length (Nat.sub_le _ _)]

/-- After any text, the screen shows its last 25 rows and the cursor stands at its end. -/
theorem screen_shows_tail (console : Console) (text : List Glyph)
    (printed : ∀ glyph ∈ text, glyph.Printed) :
    (∀ r < 25, ∀ col < 80, (console.clearScreen.print text).cells.value (r * 80 + col) =
      cellOf (shown (rows 80 Glyph.isNewline text) r col)) ∧
    (∃ row, (lastRows 25 (rows 80 Glyph.isNewline text)).getLast? = some row ∧
      (console.clearScreen.print text).cursorX = row.length) ∧
    (console.clearScreen.print text).cursorY + 1 =
      (lastRows 25 (rows 80 Glyph.isNewline text)).length ∧
    (console.clearScreen.print text).CursorShown := by
  obtain ⟨front, row, wrapped, -, shows, cursor⟩ := screen_shows_text console text printed
  have y := shows.y
  rw [wrapped, lastRows_append]
  refine ⟨shows.cells, ⟨row, by simp, shows.x⟩, ?_, cursor⟩
  simp only [List.length_append, List.length_singleton, List.length_drop]
  omega

/-- A full row, with a newline right behind it, and a letter. -/
def wrappedText : List Glyph :=
  (List.replicate 80 97#8 ++ [10#8, 98#8]).map fun c => { back := .black, front := .white, c }

theorem screen_shows_tail_wrapped :
    (unprinted.clearScreen.print wrappedText).cursorY + 1 =
        (lastRows 25 (rows 80 Glyph.isNewline wrappedText)).length ∧
      (lastRows 25 (rows 80 Glyph.isNewline wrappedText)).length = 3 := by
  refine ⟨(screen_shows_tail unprinted wrappedText ?_).2.2.1, by decide⟩
  simp only [wrappedText, List.mem_map, List.mem_append, List.mem_replicate]
  rintro glyph ⟨c, member, rfl⟩
  obtain ⟨-, rfl⟩ | member := member
  · exact .inr (by decide)
  · simp only [List.mem_cons, List.not_mem_nil, or_false] at member
    obtain rfl | rfl := member
    · exact .inl rfl
    · exact .inr (by decide)

end Console

end WindOs.Libs
