import Mathlib.Data.Int.Order.Basic
import Mathlib.Tactic.Common
import WindOs.Data.Loop

namespace WindOs.Libs

open Data

/-! # Strings in memory

A string is the characters from its address up to a NUL.  Pointers have 32 bits and
wrap around.
-/

/-- `char`, which is signed. -/
abbrev CChar := BitVec 8

abbrev Memory := BitVec 32 → CChar

/-- The string `s` stands at `ptr`, with its NUL. -/
def Memory.Holds (memory : Memory) : BitVec 32 → List CChar → Prop
  | ptr, [] => memory ptr = 0#8
  | ptr, c :: s => memory ptr = c ∧ c ≠ 0#8 ∧ Memory.Holds memory (ptr + 1#32) s

/-- The character at the head of a string, the NUL of an empty one included. -/
def first (s : List CChar) : CChar := s.headD 0#8

theorem Memory.Holds.first {memory : Memory} {ptr : BitVec 32} {s : List CChar}
    (holds : memory.Holds ptr s) : memory ptr = first s := by
  cases s with
  | nil => exact holds
  | cons c s => exact holds.1

/-- One round of the loop.  The comparison moves both pointers, and what is returned
after it is read behind the characters that were compared. -/
def strcmpRound (memory : Memory) :
    BitVec 32 × BitVec 32 → (BitVec 32 × BitVec 32) ⊕ Int
  | (lhs, rhs) =>
      if memory lhs ≠ 0#8 ∧ memory rhs ≠ 0#8 then
        if memory lhs = memory rhs then .inl (lhs + 1#32, rhs + 1#32)
        else .inr ((memory (lhs + 1#32)).toInt - (memory (rhs + 1#32)).toInt)
      else .inr ((memory lhs).toInt - (memory rhs).toInt)

/-- `none` says that the loop did not end within `fuel` rounds. -/
def strcmp (fuel : Nat) (memory : Memory) (lhs rhs : BitVec 32) : Option Int :=
  if lhs = 0#32 ∨ rhs = 0#32 then some 0 else loop (strcmpRound memory) fuel (lhs, rhs)

/-- The difference of the first characters in which two strings differ, their NULs
included. -/
def difference : List CChar → List CChar → Int
  | x :: a, y :: b => if x = y then difference a b else x.toInt - y.toInt
  | a, b => (first a).toInt - (first b).toInt

/-- The call returns a number with the sign that the two strings give it. -/
def Compares (memory : Memory) (lhs rhs : BitVec 32) (a b : List CChar) : Prop :=
  ∃ fuel result, strcmp fuel memory lhs rhs = some result ∧ (result = 0 ↔ a = b) ∧
    (a ≠ b → result.sign = (difference a b).sign)

/-- Where the strings part and both go on, the characters behind that place differ
in the same direction. -/
def PartAlike (a b : List CChar) : Prop :=
  ∀ common x y s t, a = common ++ x :: s → b = common ++ y :: t → x ≠ y →
    ((first s).toInt - (first t).toInt).sign = (x.toInt - y.toInt).sign

variable {memory : Memory} {lhs rhs : BitVec 32} {a b : List CChar}

/-- What the code returns. -/
def returned : List CChar → List CChar → Int
  | x :: a, y :: b => if x = y then returned a b else (first a).toInt - (first b).toInt
  | a, b => (first a).toInt - (first b).toInt

theorem strcmp_loop (left : memory.Holds lhs a) (right : memory.Holds rhs b) :
    loop (strcmpRound memory) (a.length + 1) (lhs, rhs) = some (returned a b) := by
  induction a generalizing lhs rhs b with
  | nil =>
      have ended : memory lhs = 0#8 := left
      apply loop_exit
      cases b <;> simp [strcmpRound, returned, ended, right.first, first]
  | cons x a ih =>
      obtain ⟨here, nonzero, behind⟩ := left
      cases b with
      | nil =>
          have ended : memory rhs = 0#8 := right
          apply loop_exit
          simp [strcmpRound, returned, ended, here, first]
      | cons y b =>
          obtain ⟨there, other, after⟩ := right
          by_cases same : x = y
          · subst same
            have round : strcmpRound memory (lhs, rhs) = .inl (lhs + 1#32, rhs + 1#32) := by
              simp [strcmpRound, here, there, nonzero]
            rw [List.length_cons, loop_next round, ih behind after]
            simp [returned]
          · apply loop_exit
            simp [strcmpRound, here, there, nonzero, other, same, behind.first, after.first, returned]

theorem strcmp_eq (left : memory.Holds lhs a) (right : memory.Holds rhs b) (lhsSet : lhs ≠ 0#32)
    (rhsSet : rhs ≠ 0#32) {fuel : Nat} {result : Int}
    (called : strcmp fuel memory lhs rhs = some result) : result = returned a b := by
  have set : ¬ (lhs = 0#32 ∨ rhs = 0#32) := by simp [lhsSet, rhsSet]
  rw [strcmp, if_neg set] at called
  exact loop_unique called (strcmp_loop left right)

theorem compares_iff_returned (left : memory.Holds lhs a) (right : memory.Holds rhs b)
    (lhsSet : lhs ≠ 0#32) (rhsSet : rhs ≠ 0#32) :
    Compares memory lhs rhs a b ↔
      (returned a b = 0 ↔ a = b) ∧ (a ≠ b → (returned a b).sign = (difference a b).sign) := by
  have set : ¬ (lhs = 0#32 ∨ rhs = 0#32) := by simp [lhsSet, rhsSet]
  constructor
  · rintro ⟨fuel, result, called, right⟩
    rwa [strcmp_eq left ‹_› lhsSet rhsSet called] at right
  · intro agrees
    exact ⟨a.length + 1, returned a b, by rw [strcmp, if_neg set, strcmp_loop left right], agrees⟩

theorem Memory.Holds.nonzero (holds : memory.Holds lhs a) : ∀ c ∈ a, c ≠ 0#8 := by
  induction a generalizing lhs with
  | nil => simp
  | cons x a ih =>
      intro c member
      cases List.mem_cons.mp member with
      | inl here => exact here ▸ holds.2.1
      | inr later => exact ih holds.2.2 c later

theorem toInt_sub_ne_zero {x y : CChar} (different : x ≠ y) : x.toInt - y.toInt ≠ 0 := by
  intro equal
  exact different (BitVec.eq_of_toInt_eq (by omega))

theorem partAlike_nil_left : PartAlike [] b := by
  intro common x y s t impossible
  cases common <;> cases impossible

theorem partAlike_nil_right : PartAlike a [] := by
  intro common x y s t _ impossible
  cases common <;> cases impossible

theorem partAlike_cons_self {x : CChar} : PartAlike (x :: a) (x :: b) ↔ PartAlike a b := by
  constructor
  · intro alike common y z s t left right
    exact alike (x :: common) y z s t (by rw [left]; rfl) (by rw [right]; rfl)
  · intro alike common y z s t left right different
    cases common with
    | nil =>
        cases left
        cases right
        exact absurd rfl different
    | cons w common =>
        cases left
        exact alike common y z s t rfl (List.cons.inj right).2 different

theorem partAlike_cons_of_ne {x y : CChar} (different : x ≠ y) : PartAlike (x :: a) (y :: b) ↔
    ((first a).toInt - (first b).toInt).sign = (x.toInt - y.toInt).sign := by
  constructor
  · intro alike
    exact alike [] x y a b rfl rfl different
  · intro same common u v s t left right _
    cases common with
    | nil =>
        cases left
        cases right
        exact same
    | cons w common =>
        cases left
        exact absurd (List.cons.inj right).1 (Ne.symm different)

/-- The number that is returned is right exactly for strings that part alike. -/
theorem returned_iff (left : ∀ c ∈ a, c ≠ 0#8) (right : ∀ c ∈ b, c ≠ 0#8) :
    ((returned a b = 0 ↔ a = b) ∧ (a ≠ b → (returned a b).sign = (difference a b).sign)) ↔
      PartAlike a b := by
  induction a generalizing b with
  | nil =>
      refine iff_of_true ?_ partAlike_nil_left
      cases b with
      | nil => simp [returned, first]
      | cons y b =>
          have nonzero := toInt_sub_ne_zero (Ne.symm (right y (by simp)))
          simpa [returned, difference, first] using nonzero
  | cons x a ih =>
      cases b with
      | nil =>
          have nonzero := toInt_sub_ne_zero (left x (by simp))
          refine iff_of_true ?_ partAlike_nil_right
          simpa [returned, difference, first] using nonzero
      | cons y b =>
          by_cases same : x = y
          · subst same
            rw [partAlike_cons_self,
              ← ih (fun c member => left c (List.mem_cons_of_mem _ member))
                (fun c member => right c (List.mem_cons_of_mem _ member))]
            simp [returned, difference]
          · have unequal : x :: a ≠ y :: b := fun equal => same (List.cons.inj equal).1
            have nonzero := toInt_sub_ne_zero same
            rw [partAlike_cons_of_ne same]
            simp only [returned, difference, if_neg same, unequal, iff_false, ne_eq,
              not_false_eq_true, forall_const, and_iff_right_iff_imp]
            intro sign zero
            rw [zero, Int.sign_zero] at sign
            exact nonzero (Int.sign_eq_zero_iff_zero.mp sign.symm)

/-- `strcmp` compares two strings as it should exactly when they part alike. -/
theorem strcmp_correct_iff (memory : Memory) (lhs rhs : BitVec 32) (a b : List CChar)
    (left : memory.Holds lhs a) (right : memory.Holds rhs b) (lhsSet : lhs ≠ 0#32)
    (rhsSet : rhs ≠ 0#32) : Compares memory lhs rhs a b ↔ PartAlike a b := by
  rw [compares_iff_returned left right lhsSet rhsSet, returned_iff left.nonzero right.nonzero]

/-- Memory that begins with the given characters at address 1, and is 0 behind them. -/
def fromOne (chars : List CChar) : Memory := fun ptr => chars.getD (ptr.toNat - 1) 0#8

/-- "ab" and "abc" -/
theorem strcmp_correct_iff_proper_part :
    Compares (fromOne [97#8, 98#8, 0#8, 97#8, 98#8, 99#8]) 1#32 4#32 [97#8, 98#8]
      [97#8, 98#8, 99#8] :=
  (strcmp_correct_iff _ 1#32 4#32 _ _ (by simp [Memory.Holds, fromOne])
    (by simp [Memory.Holds, fromOne]) (by decide) (by decide)).mpr
    (partAlike_cons_self.mpr (partAlike_cons_self.mpr partAlike_nil_left))

/-- "a" and "b": what is subtracted are their NULs. -/
theorem different_strings_compare_equal :
    ¬ Compares (fromOne [97#8, 0#8, 98#8]) 1#32 3#32 [97#8] [98#8] := by
  rintro ⟨fuel, result, called, zero, -⟩
  have equal : result = 0 := strcmp_eq (a := [97#8]) (b := [98#8]) (by simp [Memory.Holds, fromOne])
    (by simp [Memory.Holds, fromOne]) (by decide) (by decide) called
  exact absurd (zero.mp equal) (by decide)

end WindOs.Libs
