import Mathlib.Data.List.Nodup

namespace WindOs.Data

universe u

/-! # Chains

A chain is a doubly linked list that ends in `NULL` on both sides: `older` leads
from its head to its end and `younger` back.
-/

variable {α : Type u} [DecidableEq α] {older younger older' younger' : α → Option α} {back : Option α}
  {x : α} {list xs ys : List α}

/-- The members are linked in the order of the list; `back` is behind the first. -/
def Chained (older younger : α → Option α) : Option α → List α → Prop
  | _, [] => True
  | back, x :: xs =>
      younger x = back ∧ older x = xs.head? ∧ Chained older younger (some x) xs

namespace Chained

omit [DecidableEq α] in
/-- Both neighbours of a member. -/
theorem links (chain : Chained older younger back (xs ++ x :: ys)) :
    older x = ys.head? ∧ younger x = xs.getLast?.or back := by
  induction xs generalizing back with
  | nil => exact ⟨chain.2.1, by simpa using chain.1⟩
  | cons a rest ih =>
      obtain ⟨next, behind⟩ := ih chain.2.2
      refine ⟨next, ?_⟩
      rw [behind, List.getLast?_cons]
      cases rest.getLast? <;> rfl

omit [DecidableEq α] in
theorem congr (chain : Chained older younger back list)
    (forward : ∀ q ∈ list, older' q = older q) (backward : ∀ q ∈ list, younger' q = younger q) :
    Chained older' younger' back list := by
  induction list generalizing back with
  | nil => trivial
  | cons y rest ih =>
      obtain ⟨first, next, tail⟩ := chain
      refine ⟨(backward y (by simp)).trans first, (forward y (by simp)).trans next, ?_⟩
      exact ih tail (fun q member => forward q (by simp [member]))
        fun q member => backward q (by simp [member])

omit [DecidableEq α] in
/-- The first member gets somebody behind it. -/
theorem rebase {other : Option α} (chain : Chained older younger back list) (nodup : list.Nodup)
    (forward : ∀ q ∈ list, older' q = older q)
    (first : ∀ q, list.head? = some q → younger' q = other)
    (backward : ∀ q ∈ list, list.head? ≠ some q → younger' q = younger q) :
    Chained older' younger' other list := by
  cases list with
  | nil => trivial
  | cons y rest =>
      obtain ⟨-, next, tail⟩ := chain
      have fresh := (List.nodup_cons.mp nodup).1
      refine ⟨first y rfl, (forward y (by simp)).trans next, ?_⟩
      refine tail.congr (fun q member => forward q (by simp [member])) ?_
      intro q member
      apply backward q (by simp [member])
      rintro ⟨⟩
      exact fresh member

theorem push (chain : Chained older younger none list) (nodup : (x :: list).Nodup)
    (newOlder : older' x = list.head?) (newYounger : younger' x = none)
    (forward : ∀ q ∈ list, older' q = older q)
    (backward : ∀ q ∈ list, younger' q = if list.head? = some q then some x else younger q) :
    Chained older' younger' none (x :: list) := by
  refine ⟨newYounger, newOlder, chain.rebase (List.nodup_cons.mp nodup).2 forward ?_ ?_⟩
  · intro q first
    rw [backward q (List.mem_of_mem_head? first), if_pos first]
  · intro q member other
    rw [backward q member, if_neg other]

/-- Unlinking a member anywhere in the chain. -/
theorem delete (chain : Chained older younger back (xs ++ x :: ys))
    (nodup : (xs ++ x :: ys).Nodup) (outside : ∀ b, back = some b → b ∉ xs ++ x :: ys)
    (forward : ∀ q ∈ xs ++ ys, older' q = if younger x = some q then older x else older q)
    (backward : ∀ q ∈ xs ++ ys, younger' q = if older x = some q then younger x else younger q) :
    Chained older' younger' back (xs ++ ys) := by
  induction xs generalizing back with
  | nil =>
      obtain ⟨first, next, tail⟩ := chain
      refine tail.rebase (List.nodup_cons.mp nodup).2 ?_ ?_ ?_
      · intro q member
        rw [forward q member, if_neg]
        rw [first]
        intro behind
        exact outside q behind (by simp [show q ∈ ys from member])
      · intro q head
        rw [backward q (List.mem_of_mem_head? head), next, if_pos head, first]
      · intro q member other
        rw [backward q member, next, if_neg other]
  | cons a rest ih =>
      obtain ⟨first, next, tail⟩ := chain
      obtain ⟨fresh, nodup⟩ := List.nodup_cons.mp nodup
      obtain ⟨next', behind⟩ := tail.links
      have notOlder : older x ≠ some a := by
        rw [next']
        intro head
        exact fresh (by simp [List.mem_of_mem_head? head])
      refine ⟨?_, ?_, ?_⟩
      · rw [backward a (by simp), if_neg notOlder, first]
      · rw [forward a (by simp), behind]
        cases rest with
        | nil => simp [next']
        | cons b rest =>
            have last : (b :: rest).getLast?.or (some a) ≠ some a := by
              rw [List.getLast?_eq_some_getLast (List.cons_ne_nil b rest), Option.some_or]
              intro same
              have member := List.getLast_mem (List.cons_ne_nil b rest)
              rw [Option.some.inj same] at member
              exact fresh (List.mem_append_left _ member)
            rw [if_neg last, next]
            rfl
      · refine ih tail nodup ?_ (fun q member => forward q (by simp_all))
          fun q member => backward q (by simp_all)
        rintro b ⟨⟩
        exact fresh

end Chained

/-- The links lead from `first` through the list and end there. -/
def Forward (older : α → Option α) : Option α → List α → Prop
  | first, [] => first = none
  | first, x :: xs => first = some x ∧ Forward older (older x) xs

omit [DecidableEq α]

theorem Chained.forward (chain : Chained older younger back list) : Forward older list.head? list := by
  induction list generalizing back with
  | nil => rfl
  | cons y rest ih =>
      obtain ⟨-, next, tail⟩ := chain
      refine ⟨rfl, ?_⟩
      rw [next]
      exact ih tail

namespace Forward

variable {first : Option α}

theorem congr (forward : Forward older first list) (same : ∀ q ∈ list, older' q = older q) :
    Forward older' first list := by
  induction list generalizing first with
  | nil => exact forward
  | cons y rest ih =>
      obtain ⟨here, next⟩ := forward
      refine ⟨here, ?_⟩
      rw [same y (by simp)]
      exact ih next fun q member => same q (by simp [member])

theorem unique (forward : Forward older first xs) (again : Forward older first ys) : xs = ys := by
  induction xs generalizing first ys with
  | nil =>
      cases ys with
      | nil => rfl
      | cons y rest =>
          have none : first = none := forward
          rw [none] at again
          cases again.1
  | cons x xs ih =>
      obtain ⟨here, next⟩ := forward
      cases ys with
      | nil =>
          have none : first = none := again
          rw [none] at here
          cases here
      | cons y rest =>
          obtain ⟨there, behind⟩ := again
          obtain rfl := Option.some.inj (here.symm.trans there)
          rw [ih next behind]

end Forward

end WindOs.Data
