import Mathlib.Algebra.GroupWithZero.Nat
import Mathlib.Data.List.Basic

namespace WindOs.Data

/-! # Runs of consecutive numbers with their length at the first

A list of numbers is cut into runs of consecutive ones by a size that the first of
each run carries.  A size of 0 makes no promise, so a number may well have lost
the size of the run it begins.
-/

/-- Every nonzero size is followed by as many consecutive numbers, of size 0. -/
def Headed (size : Nat → Nat) : List Nat → Prop
  | [] => True
  | p :: rest =>
      (0 < size p → List.range' (p + 1) (size p - 1) <+: rest ∧
        ∀ q ∈ List.range' (p + 1) (size p - 1), size q = 0) ∧ Headed size rest

variable {size other : Nat → Nat} {front back zeros : List Nat} {p t n : Nat}

theorem Headed.congr (headed : Headed size back) (same : ∀ q ∈ back, other q = size q) :
    Headed other back := by
  induction back with
  | nil => trivial
  | cons p back ih =>
      refine ⟨?_, ih headed.2 (fun q member => same q (List.mem_cons_of_mem _ member))⟩
      intro positive
      rw [same p (by simp)] at positive ⊢
      obtain ⟨run, zero⟩ := headed.1 positive
      refine ⟨run, ?_⟩
      intro q member
      rw [same q (List.mem_cons_of_mem _ (run.subset member))]
      exact zero q member

theorem Headed.of_append (headed : Headed size (front ++ back)) : Headed size back := by
  induction front with
  | nil => exact headed
  | cons p front ih => exact ih headed.2

theorem headed_zeros (zero : ∀ q ∈ zeros, size q = 0) (headed : Headed size back) :
    Headed size (zeros ++ back) := by
  induction zeros with
  | nil => exact headed
  | cons p zeros ih =>
      refine ⟨?_, ih (fun q member => zero q (List.mem_cons_of_mem _ member))⟩
      intro positive
      rw [zero p (by simp)] at positive
      contradiction

/-- A size may always be forgotten. -/
theorem Headed.forget (headed : Headed size back) (t : Nat) :
    Headed (Function.update size t 0) back := by
  induction back with
  | nil => trivial
  | cons p back ih =>
      refine ⟨?_, ih headed.2⟩
      intro positive
      by_cases same : p = t
      · subst same
        simp at positive
      · rw [Function.update_of_ne same] at positive ⊢
        obtain ⟨run, zero⟩ := headed.1 positive
        refine ⟨run, ?_⟩
        intro q member
        by_cases forgotten : q = t
        · simp [forgotten]
        · rw [Function.update_of_ne forgotten]
          exact zero q member

/-- The first number of a list may be given the size of a run that is there. -/
theorem headed_cons_run (run : List.range' (p + 1) (n - 1) <+: back)
    (zero : ∀ q ∈ List.range' (p + 1) (n - 1), size q = 0) (headed : Headed size back)
    (outside : p ∉ back) : Headed (Function.update size p n) (p :: back) := by
  have same : ∀ q ∈ back, Function.update size p n q = size q := by
    intro q member
    exact Function.update_of_ne (ne_of_mem_of_not_mem member outside) _ _
  refine ⟨?_, headed.congr same⟩
  intro _
  rw [Function.update_self]
  refine ⟨run, ?_⟩
  intro q member
  rw [same q (run.subset member)]
  exact zero q member

theorem range_prefix_front {q : Nat} (run : List.range' (q + 1) n <+: front ++ t :: back)
    (start : q < p) (below : ∀ r ∈ front, r < p) (above : p < t) :
    List.range' (q + 1) n <+: front := by
  induction front generalizing q n with
  | nil =>
      cases n with
      | zero => simp
      | succ n =>
          rw [List.range'_succ, List.nil_append, List.cons_prefix_cons] at run
          omega
  | cons r front ih =>
      cases n with
      | zero => simp
      | succ n =>
          rw [List.range'_succ, List.cons_append, List.cons_prefix_cons] at run
          obtain ⟨rfl, rest⟩ := run
          rw [List.range'_succ, List.cons_prefix_cons]
          exact ⟨rfl, ih rest (below _ (by simp))
            (fun s member => below s (List.mem_cons_of_mem _ member))⟩

theorem cons_range (p : Nat) (positive : 0 < n) :
    p :: List.range' (p + 1) (n - 1) = List.range' p n := by
  obtain ⟨m, rfl⟩ := Nat.exists_eq_add_of_lt positive
  simp [List.range'_succ]

theorem range_split {m : Nat} (p : Nat) (enough : n ≤ m) :
    List.range' p m = List.range' p n ++ List.range' (p + n) (m - n) := by
  rw [List.range'_append_1]
  congr 1
  omega

/-- A sorted list is cut in front of its first number above `p`. -/
theorem sorted_cut {list : List Nat} (sorted : list.Pairwise (· < ·)) (outside : p ∉ list)
    (above : ∃ q ∈ list, p < q) :
    ∃ front t back, list = front ++ t :: back ∧ (∀ q ∈ front, q < p) ∧ p < t := by
  induction list with
  | nil => simp at above
  | cons q list ih =>
      by_cases here : p < q
      · exact ⟨[], q, list, rfl, by simp, here⟩
      · have later : ∃ q ∈ list, p < q := by
          obtain ⟨r, member, higher⟩ := above
          cases List.mem_cons.mp member with
          | inl same => omega
          | inr inside => exact ⟨r, inside, higher⟩
        obtain ⟨front, t, back, rfl, below, higher⟩ :=
          ih (List.pairwise_cons.mp sorted).2 (fun inside => outside (by simp [inside])) later
        refine ⟨q :: front, t, back, rfl, ?_, higher⟩
        intro r member
        cases List.mem_cons.mp member with
        | inl same =>
            have different : p ≠ q := fun equal => outside (by simp [equal])
            omega
        | inr inside => exact below r inside

theorem sorted_insert (sorted : (front ++ t :: back).Pairwise (· < ·)) (below : ∀ q ∈ front, q < p)
    (above : p + n ≤ t) : (front ++ (List.range' p n ++ t :: back)).Pairwise (· < ·) := by
  obtain ⟨first, second, across⟩ := List.pairwise_append.mp sorted
  refine List.pairwise_append.mpr ⟨first, List.pairwise_append.mpr
    ⟨List.pairwise_lt_range', second, ?_⟩, ?_⟩
  · intro q inRun r inBack
    have upper : t ≤ r := by
      cases List.mem_cons.mp inBack with
      | inl same => omega
      | inr later => exact Nat.le_of_lt ((List.pairwise_cons.mp second).1 r later)
    rw [List.mem_range'_1] at inRun
    omega
  · intro q inFront r member
    cases List.mem_append.mp member with
    | inl inRun =>
        have lower := below q inFront
        rw [List.mem_range'_1] at inRun
        omega
    | inr inBack => exact across q inFront r inBack

/-- Numbers put where they belong do not come between the numbers of a run. -/
theorem Headed.insert (headed : Headed size (front ++ t :: back)) (below : ∀ q ∈ front, q < p)
    (above : p < t) (inserted : List Nat) (behind : Headed size (inserted ++ t :: back)) :
    Headed size (front ++ (inserted ++ t :: back)) := by
  induction front with
  | nil => exact behind
  | cons q front ih =>
      refine ⟨?_, ih headed.2 (fun r member => below r (List.mem_cons_of_mem _ member))⟩
      intro positive
      obtain ⟨run, zero⟩ := headed.1 positive
      refine ⟨?_, zero⟩
      have inFront := range_prefix_front run (below q (by simp))
        (fun r member => below r (List.mem_cons_of_mem _ member)) above
      exact inFront.trans (List.prefix_append _ _)

/-- The first `n` numbers of a run split off, and the size passed on to what is then first. -/
theorem Headed.take_run (headed : Headed size (p :: back)) (enough : n ≤ size p) (positive : 0 < n)
    (nodup : (p :: back).Nodup) :
    ∃ rest, p :: back = List.range' p n ++ rest ∧
      (∀ q ∈ List.range' (p + 1) (n - 1), size q = 0) ∧
      ∀ q tail, rest = q :: tail → Headed (Function.update size q (size p - n)) rest := by
  obtain ⟨⟨rest, run⟩, zero⟩ := headed.1 (by omega)
  have whole : p :: back = List.range' p n ++ (List.range' (p + n) (size p - n) ++ rest) := by
    rw [← run, ← List.cons_append, cons_range p (by omega), range_split p enough, List.append_assoc]
  refine ⟨_, whole, ?_, ?_⟩
  · intro q member
    apply zero
    simp only [List.mem_range'_1] at member ⊢
    omega
  · intro q tail split
    rw [whole] at headed nodup
    rw [split] at headed nodup ⊢
    have behind : Headed size (q :: tail) := headed.of_append
    have outside : q ∉ tail := (List.nodup_cons.mp (List.nodup_append.mp nodup).2.1).1
    by_cases all : size p - n = 0
    · rw [all]
      exact behind.forget q
    · rw [← cons_range (p + n) (by omega), List.cons_append] at split
      obtain ⟨rfl, rfl⟩ := List.cons.inj split
      apply headed_cons_run (List.prefix_append _ _) _ behind.2 outside
      intro r member
      apply zero
      simp only [List.mem_range'_1] at member ⊢
      omega

/-- A number that is right in front of another can only carry the size 1. -/
theorem Headed.single {a : Nat} (headed : Headed size (front ++ a :: p :: back))
    (meets : a + size a = p) (before : a < p) : size a = 1 := by
  by_contra longer
  have run := (headed.of_append.1 (by omega)).1
  obtain ⟨m, length⟩ := Nat.exists_eq_add_of_lt (show 0 < size a - 1 by omega)
  rw [length, List.range'_succ, List.cons_prefix_cons] at run
  omega

/-- Two runs that meet become one, which the first number of the first carries. -/
theorem Headed.join {a : Nat}
    (headed : Headed size (front ++ a :: (List.range' (a + 1) (size a - 1) ++ p :: back)))
    (meets : a + size a = p) (before : a < p)
    (nodup : (front ++ a :: (List.range' (a + 1) (size a - 1) ++ p :: back)).Nodup) :
    Headed (Function.update (Function.update size a (size a + size p)) p 0)
      (front ++ a :: (List.range' (a + 1) (size a - 1) ++ p :: back)) := by
  induction front with
  | nil =>
      have different : a ≠ p := by omega
      rw [List.nil_append] at headed nodup ⊢
      rw [Function.update_comm different]
      have behind := headed.2
      have last : Headed size (p :: back) := behind.of_append
      have zero := (headed.1 (by omega)).2
      have run : List.range' (a + 1) (size a + size p - 1) =
          List.range' (a + 1) (size a - 1) ++ List.range' p (size p) := by
        rw [range_split (a + 1) (show size a - 1 ≤ size a + size p - 1 by omega)]
        congr 2 <;> omega
      apply headed_cons_run _ _ (behind.forget p) (List.nodup_cons.mp nodup).1
      · rw [run, List.prefix_append_right_inj]
        by_cases empty : size p = 0
        · simp [empty]
        · rw [← cons_range p (by omega), List.cons_prefix_cons]
          exact ⟨rfl, (last.1 (by omega)).1⟩
      · intro q member
        by_cases here : q = p
        · simp [here]
        · rw [Function.update_of_ne here]
          rw [run] at member
          cases List.mem_append.mp member with
          | inl first => exact zero q first
          | inr second =>
              rw [List.mem_range'_1] at second
              apply (last.1 (by omega)).2
              rw [List.mem_range'_1]
              omega
  | cons q front ih =>
      refine ⟨?_, ih headed.2 (List.nodup_cons.mp nodup).2⟩
      have outside := (List.nodup_cons.mp nodup).1
      have notP : q ≠ p := fun same => outside (by simp [same])
      have notA : q ≠ a := fun same => outside (by simp [same])
      intro positive
      rw [Function.update_of_ne notP, Function.update_of_ne notA] at positive ⊢
      obtain ⟨run, zero⟩ := headed.1 positive
      refine ⟨run, ?_⟩
      intro r member
      by_cases isP : r = p
      · simp [isP]
      · have notFirst : r ≠ a := by
          rintro rfl
          have none := zero r member
          omega
        rw [Function.update_of_ne isP, Function.update_of_ne notFirst]
        exact zero r member

end WindOs.Data
