namespace WindOs.Data

universe u

/-! # Text in rows of a fixed width

A text is broken into lines at its line breaks, and every line into rows.  A full
row is followed by another one, even when nothing stands in it.
-/

variable {α : Type u}

def wrapLine (width : Nat) (line : List α) : List (List α) :=
  (List.range (line.length / width + 1)).map fun k => (line.drop (width * k)).take width

def rows (width : Nat) (isBreak : α → Bool) (text : List α) : List (List α) :=
  (text.splitOnP isBreak).flatMap (wrapLine width)

/-- The last `height` rows, or all of them when there are fewer. -/
def lastRows (height : Nat) (rows : List (List α)) : List (List α) :=
  rows.drop (rows.length - height)

/-- What a row becomes when something is added to it. -/
def extendRow (width : Nat) (row : List α) (c : α) : List (List α) :=
  if row.length + 1 < width then [row ++ [c]] else [row ++ [c], []]

variable {width : Nat} {isBreak : α → Bool} {c : α}

/-- Adding to a line changes its last row only. -/
theorem wrapLine_append (positive : 0 < width) (line : List α) :
    ∃ front row, wrapLine width line = front ++ [row] ∧ row.length < width ∧
      ∀ c, wrapLine width (line ++ [c]) = front ++ extendRow width row c := by
  have whole := Nat.div_add_mod line.length width
  have rest := Nat.mod_lt line.length positive
  have length : (line.drop (width * (line.length / width))).length = line.length % width := by
    rw [List.length_drop]
    omega
  refine ⟨(List.range (line.length / width)).map fun k => (line.drop (width * k)).take width,
    line.drop (width * (line.length / width)), ?_, by omega, ?_⟩
  · rw [wrapLine, List.range_succ, List.map_append, List.map_singleton,
      List.take_of_length_le (by omega)]
  · intro c
    have full : ∀ k ∈ List.range (line.length / width),
        ((line ++ [c]).drop (width * k)).take width = (line.drop (width * k)).take width := by
      intro k member
      have small := List.mem_range.mp member
      have upto : width * k + width ≤ width * (line.length / width) := by
        rw [← Nat.mul_succ]
        exact Nat.mul_le_mul_left width small
      rw [List.drop_append_of_le_length (by omega),
        List.take_append_of_le_length (by rw [List.length_drop]; omega)]
    have last : (line ++ [c]).drop (width * (line.length / width)) =
        line.drop (width * (line.length / width)) ++ [c] :=
      List.drop_append_of_le_length (by omega)
    have taken : (line.drop (width * (line.length / width)) ++ [c]).take width =
        line.drop (width * (line.length / width)) ++ [c] :=
      List.take_of_length_le (by simp only [List.length_append, List.length_singleton]; omega)
    by_cases fits : line.length % width + 1 < width
    · have same : (line.length + 1) / width = line.length / width := by
        rw [Nat.div_eq_iff positive, Nat.mul_comm]
        omega
      rw [wrapLine, List.length_append, List.length_singleton, same, List.range_succ,
        List.map_append, List.map_singleton, List.map_congr_left full, last, taken, extendRow, length,
        if_pos fits]
    · have next : (line.length + 1) / width = line.length / width + 1 := by
        rw [Nat.div_eq_iff positive, Nat.add_mul, Nat.one_mul, Nat.mul_comm]
        omega
      have beyond : (line ++ [c]).drop (width * (line.length / width + 1)) = [] := by
        apply List.drop_of_length_le
        rw [List.length_append, List.length_singleton, Nat.mul_add, Nat.mul_one]
        omega
      rw [wrapLine, List.length_append, List.length_singleton, next, List.range_succ,
        List.range_succ, List.map_append, List.map_append, List.map_singleton, List.map_singleton,
        List.map_congr_left full, last, taken, beyond, extendRow, length, if_neg fits]
      simp

/-- Adding to a text changes its last line, or begins a new one. -/
theorem splitOnP_append (text : List α) :
    ∃ lines line, text.splitOnP isBreak = lines ++ [line] ∧
      (∀ c, isBreak c = false → (text ++ [c]).splitOnP isBreak = lines ++ [line ++ [c]]) ∧
      ∀ c, isBreak c = true → (text ++ [c]).splitOnP isBreak = lines ++ [line, []] := by
  induction text with
  | nil =>
      refine ⟨[], [], by simp, ?_, ?_⟩
      · intro c plain
        simp [List.splitOnP_cons_eq_if_modifyHead, plain]
      · intro c breaks
        simp [List.splitOnP_cons_eq_if_modifyHead, breaks]
  | cons first text ih =>
      obtain ⟨lines, line, split, plain, breaks⟩ := ih
      cases here : isBreak first with
      | true =>
          refine ⟨[] :: lines, line, ?_, ?_, ?_⟩
          · simp [List.splitOnP_cons_eq_if_modifyHead, here, split]
          · intro c isPlain
            simp [List.splitOnP_cons_eq_if_modifyHead, here, plain c isPlain]
          · intro c isBroken
            simp [List.splitOnP_cons_eq_if_modifyHead, here, breaks c isBroken]
      | false =>
          cases lines with
          | nil =>
              refine ⟨[], first :: line, ?_, ?_, ?_⟩
              · simp [List.splitOnP_cons_eq_if_modifyHead, here, split]
              · intro c isPlain
                simp [List.splitOnP_cons_eq_if_modifyHead, here, plain c isPlain]
              · intro c isBroken
                simp [List.splitOnP_cons_eq_if_modifyHead, here, breaks c isBroken]
          | cons top lines =>
              refine ⟨(first :: top) :: lines, line, ?_, ?_, ?_⟩
              · simp [List.splitOnP_cons_eq_if_modifyHead, here, split]
              · intro c isPlain
                simp [List.splitOnP_cons_eq_if_modifyHead, here, plain c isPlain]
              · intro c isBroken
                simp [List.splitOnP_cons_eq_if_modifyHead, here, breaks c isBroken]

/-- The rows of a text, and what they become when the text goes on. -/
theorem rows_append (positive : 0 < width) (isBreak : α → Bool) (text : List α) :
    ∃ front row, rows width isBreak text = front ++ [row] ∧ row.length < width ∧
      (∀ c, isBreak c = false →
        rows width isBreak (text ++ [c]) = front ++ extendRow width row c) ∧
      ∀ c, isBreak c = true → rows width isBreak (text ++ [c]) = front ++ [row, []] := by
  obtain ⟨lines, line, split, plain, breaks⟩ := @splitOnP_append _ isBreak text
  obtain ⟨front, row, wrapped, short, extended⟩ := wrapLine_append positive line
  have empty : wrapLine width ([] : List α) = [[]] := by simp [wrapLine]
  refine ⟨lines.flatMap (wrapLine width) ++ front, row, ?_, short, ?_, ?_⟩
  · simp [rows, split, wrapped]
  · intro c isPlain
    simp [rows, plain c isPlain, extended]
  · intro c isBroken
    simp [rows, breaks c isBroken, wrapped, empty]

end WindOs.Data
