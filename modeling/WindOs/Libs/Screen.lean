import WindOs.Libs.Console
import WindOs.Libs.Printf
import WindOs.Libs.StringCopy

namespace WindOs.Libs

open Data Console

/-! # printf on the screen

`printf` shows its text in white on black, character by character, so that the screen holds the end
of all that was printed since it was cleared.
-/

/-- `putc` of stdio.c -/
def putc (c : CChar) : Glyph := { back := .black, front := .white, c }

/-- One call of `printf` after another; each shows its text before the next begins. -/
def printfAll (fuel : Nat) : List Call → Console → Option Console
  | [], console => some console
  | call :: calls, console => do
      let done ← call.printf fuel
      printfAll fuel calls (console.print (done.out.map putc))

/-- A call whose format is a string that does not end within a conversion. -/
structure PrintfCall extends Call where
  chars : List CChar
  holds : memory.Holds fmt chars
  closed : trailingPercents chars % 2 = 0

namespace PrintfCall

/-- What is to be printed. -/
def text (call : PrintfCall) : List CChar := rendered call.memory call.args 0 call.chars

variable {fuel : Nat} {console : Console} {calls : List PrintfCall}

theorem printf_text (call : PrintfCall) (enough : 2 ^ 33 < fuel) :
    ∃ done, call.toCall.printf fuel = some done ∧ done.out = call.text := by
  have spells : Spells call.toCall.format call.chars := call.holds.spells
  have short := call.holds.length_lt
  have closed : dangling call.chars = false := by
    have even := call.closed
    rw [Bool.eq_false_iff, Ne, dangling_iff]
    omega
  obtain ⟨done, run, -, out⟩ := @printf_inside call.chars call.toCall fuel
    { k := 0, ap := 0, out := [], reads := [] } _ fuel spells call.holds.ended (by omega)
    (Nat.zero_le _) closed (by omega) (fun r member => absurd member List.not_mem_nil)
  exact ⟨done, Option.join_eq_some_iff.mpr run, out⟩

/-- The calls return, and show their texts one after another. -/
theorem printfAll_prints (enough : 2 ^ 33 < fuel) :
    printfAll fuel (calls.map PrintfCall.toCall) console =
      some (console.print ((calls.flatMap PrintfCall.text).map putc)) := by
  induction calls generalizing console with
  | nil => rfl
  | cons call calls ih =>
      obtain ⟨done, returned, out⟩ := call.printf_text enough
      rw [List.map_cons, printfAll, returned, Option.bind_eq_bind, Option.bind_some, ih, out,
        List.flatMap_cons, List.map_append, print_append]

/-- After the screen was cleared, every run of calls of `printf` returns, and the screen and the
cursor are those of the last 25 rows of their texts. -/
theorem printfAll_shows (console : Console) (calls : List PrintfCall) (enough : 2 ^ 33 < fuel)
    (printed : ∀ call ∈ calls, ∀ c ∈ call.text, (putc c).Printed) :
    ∃ after front row,
      printfAll fuel (calls.map PrintfCall.toCall) console.clearScreen = some after ∧
        rows 80 Glyph.isNewline ((calls.flatMap PrintfCall.text).map putc) = front ++ [row] ∧
        row.length < 80 ∧ after.Shows front row ∧ after.CursorShown := by
  have glyphs : ∀ glyph ∈ (calls.flatMap PrintfCall.text).map putc, glyph.Printed := by
    intro glyph member
    obtain ⟨c, inside, rfl⟩ := List.mem_map.mp member
    obtain ⟨call, known, inText⟩ := List.mem_flatMap.mp inside
    exact printed call known c inText
  obtain ⟨front, row, wrapped, short, shows, cursor⟩ := screen_shows_text console _ glyphs
  exact ⟨_, front, row, printfAll_prints enough, wrapped, short, shows, cursor⟩

/-- "%d\n" with the argument 7 -/
def sevenLine : PrintfCall where
  toCall := callFromOne [37#8, 100#8, 10#8]
  chars := [37#8, 100#8, 10#8]
  holds := ⟨rfl, by decide, rfl, by decide, rfl, by decide, rfl⟩
  closed := by decide

theorem sevenLine_text : sevenLine.text = [55#8, 10#8] := by
  have digits : lowDigits 10 7 = [7] := by simp [lowDigits]
  have seven : numeral 10 7 = [55#8] := by
    rw [numeral, digits]
    decide
  show numeral 10 7 ++ [10#8] = [55#8, 10#8]
  rw [seven]
  rfl

theorem printfAll_shows_twice : ∃ after,
    printfAll (2 ^ 33 + 1) [sevenLine.toCall, sevenLine.toCall] unprinted.clearScreen = some after ∧
      after.cursorY = 2 ∧ after.cells.value 80 = cellOf (some (putc 55#8)) := by
  have printed : ∀ call ∈ [sevenLine, sevenLine], ∀ c ∈ call.text, (putc c).Printed := by
    intro call known
    have same : call = sevenLine := by
      cases known with
      | head => rfl
      | tail _ later => exact List.mem_singleton.mp later
    rw [same, sevenLine_text]
    intro c member
    cases member with
    | head => exact .inr ⟨by decide, by decide⟩
    | tail _ later => exact .inl (List.mem_singleton.mp later)
  obtain ⟨after, front, row, shown, wrapped, -, shows, -⟩ :=
    @printfAll_shows (2 ^ 33 + 1) unprinted [sevenLine, sevenLine] (Nat.lt_succ_self _) printed
  have lines : rows 80 Glyph.isNewline (([sevenLine, sevenLine].flatMap text).map putc) =
      [[putc 55#8], [putc 55#8]] ++ [[]] := by
    simp only [List.flatMap_cons, List.flatMap_nil, sevenLine_text]
    decide
  obtain ⟨rfl, last⟩ := List.append_inj' (wrapped.symm.trans lines) rfl
  obtain rfl := (List.cons.inj last).1
  exact ⟨after, shown, shows.y, shows.cells 1 (by decide) 0 (by decide)⟩

end PrintfCall

end WindOs.Libs
