import Mathlib.Data.Nat.Bitwise
import WindOs.Data.Cells
import WindOs.Libs.CString

namespace WindOs.Libs

open Data

/-! # The text screen of VGA.c

`VGA_START` points to 80 * 25 cells of 16 bits, but nothing keeps an index below
2000.  The cursor is kept in two variables of 8 bits and copied to two registers of
the graphics controller.
-/

inductive Color where
  | black
  | blue
  | green
  | cyan
  | red
  | magenta
  | brown
  | lightGrey
  | darkGrey
  | lightBlue
  | lightGreen
  | lightCyan
  | lightRed
  | lightMagenta
  | lightBrown
  | white
deriving DecidableEq, Repr

/-- `high` and `low` are the registers 14 and 15 behind the ports 0x3D4 and 0x3D5. -/
structure Console where
  cells : Cells (BitVec 16)
  cursorX : Nat
  cursorY : Nat
  high : Nat
  low : Nat

def charMix (back front : Color) (c : CChar) : BitVec 16 :=
  let mix := (BitVec.ofNat 16 back.ctorIdx <<< 4) ||| (BitVec.ofNat 16 front.ctorIdx &&& 0xf#16)
  (mix <<< 8) ||| c.signExtend 16

/-- `char_mix(black, white, ' ')` -/
def blank : BitVec 16 := charMix .black .white 32#8

namespace Console

def moveCursor (console : Console) : Console :=
  let cursor := (console.cursorY * 80 + console.cursorX) % 2 ^ 16
  { console with high := cursor / 2 ^ 8 % 2 ^ 8, low := cursor % 2 ^ 8 }

def scroll (console : Console) : Console :=
  if console.cursorY < 25 then console
  else
    let moved := (List.range' 1 24).foldl (fun cells i =>
      (List.range 80).foldl (fun cells j =>
        cells.set ((i - 1) * 80 + j) (cells.value (i * 80 + j))) cells) console.cells
    let cleared := (List.range 80).foldl (fun cells i => cells.set (24 * 80 + i) blank) moved
    { console with cells := cleared, cursorY := 24 }

/-- `cursor_x = 0; cursor_y++; scroll();` -/
def newRow (console : Console) : Console :=
  { console with cursorX := 0, cursorY := (console.cursorY + 1) % 2 ^ 8 }.scroll

/-- The cell under the cursor is written, and the cursor moves to the right. -/
def putCell (console : Console) (cell : BitVec 16) : Console :=
  { console with
    cells := console.cells.set (console.cursorY * 80 + console.cursorX) cell
    cursorX := (console.cursorX + 1) % 2 ^ 8 }

def showChar (console : Console) (back front : Color) (c : CChar) : Console :=
  if c = 8#8 ∧ console.cursorX ≠ 0 then
    { console with cursorX := console.cursorX - 1 }.moveCursor
  else if c = 9#8 then
    { console with cursorX := ((console.cursorX + 4) ||| 0xFC) % 2 ^ 8 }.moveCursor
  else if c = 10#8 then console.newRow.moveCursor
  else if c.toInt ≥ 32 then
    let console := console.putCell (charMix back front c)
    (if console.cursorX ≥ 80 then console.newRow else console).moveCursor
  else console

def clearScreen (console : Console) : Console :=
  let cells := (List.range 25).foldl (fun cells i =>
    (List.range 80).foldl (fun cells j => cells.set (i * 80 + j) blank) cells) console.cells
  { console with cells, cursorX := 0, cursorY := 0 }.moveCursor

/-- A character with its two colours. -/
structure Glyph where
  back : Color
  front : Color
  c : CChar
deriving DecidableEq, Repr

/-- `show_char` for one character after the other. -/
def print (console : Console) (text : List Glyph) : Console :=
  text.foldl (fun console glyph => console.showChar glyph.back glyph.front glyph.c) console

variable {console : Console} {glyph : Glyph} {back front : Color} {c : CChar}

theorem print_append (first second : List Glyph) :
    console.print (first ++ second) = (console.print first).print second :=
  List.foldl_append

@[simp] theorem moveCursor_cells : console.moveCursor.cells = console.cells := rfl

@[simp] theorem moveCursor_cursorX : console.moveCursor.cursorX = console.cursorX := rfl

@[simp] theorem moveCursor_cursorY : console.moveCursor.cursorY = console.cursorY := rfl

theorem scroll_above (above : console.cursorY < 25) : console.scroll = console :=
  if_pos above

/-- The two nested loops of `scroll` run over the upper 24 rows. -/
theorem scroll_rows (cells : Cells (BitVec 16)) :
    (List.range' 1 24).foldl (fun cells i =>
      (List.range 80).foldl (fun cells j =>
        cells.set ((i - 1) * 80 + j) (cells.value (i * 80 + j))) cells) cells =
      (List.range (24 * 80)).foldl (fun cells k => cells.set k (cells.value (k + 80))) cells := by
  have row : ∀ i, 1 + i - 1 = i := by omega
  have next : ∀ i j, (1 + i) * 80 + j = i * 80 + j + 80 := by omega
  rw [List.range'_eq_map_range, List.foldl_map, ← Cells.foldl_grid]
  simp only [row, next]

theorem scroll_value (below : ¬ console.cursorY < 25) (k : Nat) :
    console.scroll.cells.value k =
      if k < 24 * 80 then console.cells.value (k + 80)
      else if k < 25 * 80 then blank else console.cells.value k := by
  simp only [scroll, if_neg below, scroll_rows, Cells.foldl_fill_value, Cells.foldl_shift_value]
  by_cases upper : k < 24 * 80
  · have above : ¬ (24 * 80 ≤ k ∧ k < 24 * 80 + 80) := by omega
    simp only [if_neg above, if_pos upper]
  · have lower : (24 * 80 ≤ k ∧ k < 24 * 80 + 80) ↔ k < 25 * 80 := by omega
    simp only [lower, if_neg upper]

/-- The cursor is on the screen, and nothing was written outside of it. -/
structure OnScreen (console : Console) : Prop where
  x : console.cursorX < 80
  y : console.cursorY < 25
  within : console.cells.Within 2000

/-- Before the first character: `cursor_x` and `cursor_y` as they are initialised. -/
structure Initial (console : Console) : Prop where
  x : console.cursorX = 0
  y : console.cursorY = 0
  unwritten : console.cells.written = []

theorem scroll_within (within : console.cells.Within 2000) : console.scroll.cells.Within 2000 := by
  by_cases above : console.cursorY < 25
  · rwa [scroll_above above]
  · simp only [scroll, if_neg above, scroll_rows]
    apply Cells.Within.foldl
    · apply within.foldl
      intro k member cells inside
      have small := List.mem_range.mp member
      exact inside.set (by omega)
    · intro i member cells inside
      have small := List.mem_range.mp member
      exact inside.set (by omega)

theorem newRow_cursorX : console.newRow.cursorX = 0 := by
  simp only [newRow, scroll]
  split
  · rfl
  · rfl

theorem newRow_cursorY (above : console.cursorY < 25) :
    console.newRow.cursorY = min (console.cursorY + 1) 24 := by
  have small : (console.cursorY + 1) % 2 ^ 8 = console.cursorY + 1 := by omega
  simp only [newRow, scroll, small]
  split
  · next kept => simp only; omega
  · next last => simp only; omega

theorem newRow_onScreen (above : console.cursorY < 25) (within : console.cells.Within 2000) :
    console.newRow.OnScreen where
  x := by simp [newRow_cursorX]
  y := by
    rw [newRow_cursorY above]
    omega
  within := scroll_within within

theorem OnScreen.putCell (onScreen : console.OnScreen) (cell : BitVec 16) :
    (if (console.putCell cell).cursorX ≥ 80 then (console.putCell cell).newRow
      else console.putCell cell).OnScreen := by
  have x := onScreen.x
  have y := onScreen.y
  have written : (console.putCell cell).cells.Within 2000 := onScreen.within.set (by omega)
  split
  · exact newRow_onScreen y written
  · next inRow => exact ⟨by omega, y, written⟩

theorem OnScreen.showChar (onScreen : console.OnScreen) (noTab : c ≠ 9#8) :
    (console.showChar back front c).OnScreen := by
  have x := onScreen.x
  by_cases backspace : c = 8#8 ∧ console.cursorX ≠ 0
  · simp only [Console.showChar, if_pos backspace]
    exact ⟨by simp only [moveCursor_cursorX]; omega, onScreen.y, onScreen.within⟩
  by_cases newline : c = 10#8
  · simp only [Console.showChar, if_neg backspace, if_neg noTab, if_pos newline]
    have row := newRow_onScreen onScreen.y onScreen.within
    exact ⟨row.x, row.y, row.within⟩
  by_cases printable : c.toInt ≥ 32
  · simp only [Console.showChar, if_neg backspace, if_neg noTab, if_neg newline, if_pos printable]
    have shown := onScreen.putCell (charMix back front c)
    exact ⟨shown.x, shown.y, shown.within⟩
  · simp only [Console.showChar, if_neg backspace, if_neg noTab, if_neg newline, if_neg printable]
    exact onScreen

theorem OnScreen.print (onScreen : console.OnScreen) {text : List Glyph}
    (noTab : ∀ glyph ∈ text, glyph.c ≠ 9#8) : (console.print text).OnScreen := by
  induction text generalizing console with
  | nil => exact onScreen
  | cons glyph text ih =>
      apply ih (onScreen.showChar (noTab glyph (by simp)))
      intro glyph member
      exact noTab glyph (List.mem_cons_of_mem _ member)

/-- Where a tab puts the cursor: the mask was to clear two bits and sets six. -/
theorem showChar_tab : 252 ≤ (console.showChar back front 9#8).cursorX := by
  have other : ¬ (9#8 = 8#8 ∧ console.cursorX ≠ 0) := fun both => absurd both.1 (by decide)
  simp only [Console.showChar, if_neg other, if_true, moveCursor_cursorX, Nat.or_mod_two_pow]
  exact Nat.right_le_or

/-- The cursor stays on the screen exactly while no tab is printed. -/
theorem cursor_on_screen_iff (console : Console) (initial : console.Initial) (text : List Glyph) :
    (∀ count ≤ text.length, (console.print (text.take count)).OnScreen) ↔
      ∀ glyph ∈ text, glyph.c ≠ 9#8 := by
  constructor
  · intro stays glyph member tab
    obtain ⟨before, behind, rfl⟩ := List.append_of_mem member
    have upto : (before ++ glyph :: behind).take (before.length + 1) = before ++ [glyph] := by
      rw [List.take_append, List.take_of_length_le (Nat.le_succ _)]
      simp
    have onScreen := stays (before.length + 1) (by simp)
    rw [upto, print_append] at onScreen
    have right := @showChar_tab (console.print before) glyph.back glyph.front
    have x := onScreen.x
    rw [← tab] at right
    have here : ((console.print before).print [glyph]).cursorX =
      ((console.print before).showChar glyph.back glyph.front glyph.c).cursorX := rfl
    omega
  · intro noTab count upto
    have start : console.OnScreen := by
      refine ⟨by simp [initial.x], by simp [initial.y], ?_⟩
      simp [Cells.Within, initial.unwritten]
    apply start.print
    intro glyph member
    exact noTab glyph (List.mem_of_mem_take member)

/-- A screen on which nothing was printed yet. -/
def unprinted : Console where
  cells := { value := fun _ => 0#16, written := [] }
  cursorX := 0
  cursorY := 0
  high := 0
  low := 0

theorem unprinted_initial : unprinted.Initial := ⟨rfl, rfl, rfl⟩

/-- A letter, a backspace, a backspace in the first column and a newline. -/
def noTabs : List Glyph :=
  [97#8, 8#8, 8#8, 10#8].map fun c => { back := .black, front := .white, c }

theorem cursor_on_screen_iff_backspaces :
    unprinted.Initial ∧ ∀ count ≤ noTabs.length, (unprinted.print (noTabs.take count)).OnScreen :=
  ⟨unprinted_initial, (cursor_on_screen_iff unprinted unprinted_initial noTabs).mpr (by decide)⟩

/-- One tab, and the cursor is in column 252. -/
theorem tab_leaves_screen :
    ¬ ∀ count ≤ 1, (unprinted.print ([⟨.black, .white, 9#8⟩].take count)).OnScreen := by
  intro stays
  have column : (unprinted.print ([⟨.black, .white, 9#8⟩].take 1)).cursorX = 252 := by decide
  have x := (stays 1 le_rfl).x
  omega

end Console

end WindOs.Libs
