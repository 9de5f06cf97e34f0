import Mathlib.Logic.Function.Basic

namespace WindOs.Data

universe u v

/-! # Arrays that are written in place

An array is the function of its cells and the list of the indices at which it was
written.  An index is any number: whether it lies inside the array is what has to
be shown.
-/

structure Cells (α : Type u) where
  value : Nat → α
  /-- Latest first. -/
  written : List Nat

namespace Cells

variable {α : Type u} {σ : Type v}

def set (cells : Cells α) (i : Nat) (value : α) : Cells α where
  value := Function.update cells.value i value
  written := i :: cells.written

/-- The values in consecutive cells from `i` on. -/
def setAll (cells : Cells α) (i : Nat) : List α → Cells α
  | [] => cells
  | value :: values => (cells.set i value).setAll (i + 1) values

def swap (cells : Cells α) (i j : Nat) : Cells α :=
  (cells.set i (cells.value j)).set j (cells.value i)

/-- No write was outside the first `size` cells. -/
def Within (cells : Cells α) (size : Nat) : Prop :=
  ∀ i ∈ cells.written, i < size

variable {cells : Cells α} {i j size : Nat} {value : α}

@[simp] theorem set_value_self : (cells.set i value).value i = value := by
  simp [set]

theorem set_value_of_ne (different : j ≠ i) : (cells.set i value).value j = cells.value j := by
  simp [set, different]

theorem set_within_iff : (cells.set i value).Within size ↔ i < size ∧ cells.Within size :=
  List.forall_mem_cons

theorem Within.set (within : cells.Within size) (inside : i < size) :
    (cells.set i value).Within size :=
  set_within_iff.mpr ⟨inside, within⟩

theorem Within.mono {more : Nat} (within : cells.Within size) (larger : size ≤ more) :
    cells.Within more :=
  fun i written => Nat.lt_of_lt_of_le (within i written) larger

theorem Within.setAll {values : List α} (within : cells.Within size)
    (room : i + values.length ≤ size) : (cells.setAll i values).Within size := by
  induction values generalizing cells i with
  | nil => exact within
  | cons value values ih =>
      rw [List.length_cons] at room
      exact ih (within.set (by omega)) (by omega)

theorem Within.foldl {β : Type v} {indices : List β} {write : Cells α → β → Cells α}
    (within : cells.Within size)
    (kept : ∀ b ∈ indices, ∀ cells, Within cells size → Within (write cells b) size) :
    (indices.foldl write cells).Within size := by
  induction indices generalizing cells with
  | nil => exact within
  | cons b indices ih =>
      apply ih (kept b (by simp) cells within)
      intro b member
      exact kept b (List.mem_cons_of_mem _ member)

/-- A loop over rows and columns is one loop over the cells. -/
theorem foldl_grid (rows cols : Nat) (body : σ → Nat → σ) (state : σ) :
    (List.range rows).foldl (fun state i =>
      (List.range cols).foldl (fun state j => body state (i * cols + j)) state) state =
      (List.range (rows * cols)).foldl body state := by
  induction rows with
  | zero => simp
  | succ rows ih =>
      rw [List.range_succ, List.foldl_append, ih, Nat.succ_mul, List.range_add, List.foldl_append,
        List.foldl_map]
      rfl

/-- Every cell takes the value of one that is `distance` further on. -/
theorem foldl_shift_value (count distance : Nat) (cells : Cells α) :
    ((List.range count).foldl (fun cells k => cells.set k (cells.value (k + distance))) cells).value =
      fun m => if m < count then cells.value (m + distance) else cells.value m := by
  induction count with
  | zero => simp
  | succ count ih =>
      rw [List.range_succ, List.foldl_append, List.foldl_cons, List.foldl_nil]
      funext m
      by_cases here : m = count
      · subst here
        have ahead : ¬ m + distance < m := by omega
        simp [ih, ahead]
      · rw [set_value_of_ne here, ih]
        have same : m < count + 1 ↔ m < count := by omega
        simp only [same]

/-- The cells from `first` on take one value. -/
theorem foldl_fill_value (count first : Nat) (value : α) (cells : Cells α) :
    ((List.range count).foldl (fun cells k => cells.set (first + k) value) cells).value =
      fun m => if first ≤ m ∧ m < first + count then value else cells.value m := by
  induction count with
  | zero =>
      funext m
      have outside : ¬ (first ≤ m ∧ m < first + 0) := by omega
      simp only [List.range_zero, List.foldl_nil, if_neg outside]
  | succ count ih =>
      rw [List.range_succ, List.foldl_append, List.foldl_cons, List.foldl_nil]
      funext m
      by_cases here : m = first + count
      · subst here
        have inside : first ≤ first + count ∧ first + count < first + (count + 1) := by omega
        rw [set_value_self, if_pos inside]
      · rw [set_value_of_ne here, ih]
        have same : (first ≤ m ∧ m < first + (count + 1)) ↔ (first ≤ m ∧ m < first + count) := by omega
        simp only [same]

theorem setAll_value_before {values : List α} (before : j < i) :
    (cells.setAll i values).value j = cells.value j := by
  induction values generalizing cells i with
  | nil => rfl
  | cons value values ih =>
      rw [setAll, ih (by omega), set_value_of_ne (by omega)]

theorem setAll_value {values : List α} {k : Nat} (inside : k < values.length) :
    (cells.setAll i values).value (i + k) = values[k] := by
  induction values generalizing cells i k with
  | nil => simp at inside
  | cons value values ih =>
      cases k with
      | zero =>
          have first := @setAll_value_before _ (cells.set i value) (i + 1) i values (by omega)
          simpa [setAll] using first
      | succ k =>
          have later : k < values.length := by simpa using inside
          have behind : i + (k + 1) = i + 1 + k := by omega
          rw [setAll, behind, ih later]
          simp

theorem swap_value (k : Nat) : (cells.swap i j).value k =
    if k = i then cells.value j else if k = j then cells.value i else cells.value k := by
  by_cases second : k = j
  · subst second
    by_cases same : k = i
    · simp [swap, same]
    · simp [swap, same]
  · by_cases first : k = i
    · subst first
      simp [swap, set_value_of_ne second]
    · simp [swap, set_value_of_ne second, set_value_of_ne first, first, second]

/-- Swapping from both ends: what lies outside the two positions reached is reversed. -/
theorem foldl_swap_value (size count : Nat) (half : 2 * count ≤ size + 1) (cells : Cells α) :
    ((List.range count).foldl (fun cells i => cells.swap i (size - 1 - i)) cells).value =
      fun m => if m < size ∧ (m < count ∨ size - 1 - m < count) then cells.value (size - 1 - m)
        else cells.value m := by
  induction count with
  | zero => simp
  | succ count ih =>
      rw [List.range_succ, List.foldl_append, List.foldl_cons, List.foldl_nil]
      funext m
      simp only [swap_value, ih (by omega)]
      by_cases lower : m = count
      · subst lower
        have within : m < size ∧ (m < m + 1 ∨ size - 1 - m < m + 1) := by omega
        have untouched : ¬ (size - 1 - m < size ∧
            (size - 1 - m < m ∨ size - 1 - (size - 1 - m) < m)) := by omega
        rw [if_pos rfl, if_pos within, if_neg untouched]
      · by_cases upper : m = size - 1 - count
        · have within : m < size ∧ (m < count + 1 ∨ size - 1 - m < count + 1) := by omega
          have untouched : ¬ (count < size ∧ (count < count ∨ size - 1 - count < count)) := by omega
          have mirrored : size - 1 - m = count := by omega
          rw [if_neg lower, if_pos upper, if_pos within, if_neg untouched, mirrored]
        · have same : (m < size ∧ (m < count + 1 ∨ size - 1 - m < count + 1)) ↔
              (m < size ∧ (m < count ∨ size - 1 - m < count)) := by omega
          rw [if_neg lower, if_neg upper]
          simp only [same]

/-- As many swaps as reach the middle reverse the cells. -/
theorem foldl_reverse_value {size : Nat} (nonempty : 0 < size) (cells : Cells α) :
    ((List.range ((size - 1) / 2 + 1)).foldl (fun cells i => cells.swap i (size - 1 - i)) cells).value =
      fun m => if m < size then cells.value (size - 1 - m) else cells.value m := by
  rw [foldl_swap_value size _ (by omega)]
  funext m
  by_cases inside : m < size
  · by_cases done : m < (size - 1) / 2 + 1 ∨ size - 1 - m < (size - 1) / 2 + 1
    · rw [if_pos ⟨inside, done⟩, if_pos inside]
    · omega
  · rw [if_neg inside, if_neg (fun both => inside both.1)]

end Cells

end WindOs.Data
