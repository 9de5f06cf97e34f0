import Mathlib.Algebra.GroupWithZero.Nat

namespace WindOs.Data

universe u v w

/-! # Fuelled loops

A `while` loop with early exits is its body as a function into a sum: `inl`
goes round again and `inr` leaves with a result.  `loop` runs it for at most
`fuel` rounds, so a loop that never ends is `none` for every amount of fuel.
-/

def loop {α : Type u} {β : Type v} (body : α → α ⊕ β) : Nat → α → Option β
  | 0, _ => none
  | fuel + 1, state =>
      match body state with
      | .inl next => loop body fuel next
      | .inr result => some result

/-- A round that may fail: go round again with its result, or leave with the error. -/
def attempt {ε : Type w} {σ α : Type u} {β : Type v} (round : Except ε α) (next : α → σ) :
    σ ⊕ Except ε β :=
  match round with
  | .ok result => .inl (next result)
  | .error error => .inr (.error error)

/-- What a computation that returned has computed on the way. -/
theorem ok_of_bind {ε : Type w} {α β : Type u} {first : Except ε α} {second : α → Except ε β} {b : β}
    (done : first >>= second = .ok b) : ∃ a, first = .ok a ∧ second a = .ok b := by
  cases first with
  | error error => cases done
  | ok a => exact ⟨a, rfl, done⟩

theorem ok_of_map {ε : Type w} {α β : Type u} {first : Except ε α} {second : α → β} {b : β}
    (done : first.map second = .ok b) : ∃ a, first = .ok a ∧ second a = b := by
  cases first with
  | error error => cases done
  | ok a => exact ⟨a, rfl, Except.ok.inj done⟩

theorem ok_of_toOption {ε : Type w} {α : Type u} {result : Except ε α} {a : α}
    (returned : result.toOption = some a) : result = .ok a := by
  cases result with
  | error error => cases returned
  | ok b => exact congrArg Except.ok (Option.some.inj returned)

theorem attempt_again {ε : Type w} {σ α : Type u} {β : Type v} {round : Except ε α} {next : α → σ}
    {state : σ} (again : attempt round next = (.inl state : σ ⊕ Except ε β)) :
    ∃ a, round = .ok a ∧ next a = state := by
  cases round with
  | error error => cases again
  | ok a => exact ⟨a, rfl, Sum.inl.inj again⟩

theorem attempt_not_ok {ε : Type w} {σ α : Type u} {β : Type v} {round : Except ε α} {next : α → σ}
    {result : β} : attempt round next ≠ (.inr (.ok result) : σ ⊕ Except ε β) := by
  cases round with
  | error error => exact fun same => nomatch same
  | ok a => exact fun same => nomatch same

/-- The states from which a loop went round again, in their order. -/
def trace {α : Type u} {β : Type v} (body : α → α ⊕ β) : Nat → α → List α
  | 0, _ => []
  | fuel + 1, state =>
      match body state with
      | .inl next => state :: trace body fuel next
      | .inr _ => []

variable {α : Type u} {β : Type v} {body : α → α ⊕ β} {state next : α} {result : β} {fuel : Nat}

theorem trace_next (round : body state = .inl next) :
    trace body (fuel + 1) state = state :: trace body fuel next := by
  simp only [trace, round]

theorem trace_exit (left : body state = .inr result) : trace body (fuel + 1) state = [] := by
  simp only [trace, left]

theorem trace_invariant {property : α → Prop}
    (kept : ∀ state next, property state → body state = .inl next → property next)
    (initial : property state) : ∀ visited ∈ trace body fuel state, property visited := by
  induction fuel generalizing state with
  | zero => simp [trace]
  | succ fuel ih =>
      cases round : body state with
      | inl next =>
          rw [trace_next round]
          intro visited member
          cases List.mem_cons.mp member with
          | inl here => exact here ▸ initial
          | inr later => exact ih (kept state next initial round) visited later
      | inr value =>
          rw [trace_exit round]
          simp

/-- The states that the rounds of a loop lead to. -/
inductive Reached {α : Type u} {β : Type v} (body : α → α ⊕ β) (start : α) : α → Prop where
  | start : Reached body start start
  | round {state next : α} (reached : Reached body start state) (again : body state = .inl next) :
      Reached body start next

/-- The rounds after the first. -/
theorem Reached.later {last : α} (first : body state = .inl next) (reached : Reached body next last) :
    Reached body state last := by
  induction reached with
  | start => exact .round .start first
  | round _ again ih => exact .round ih again

theorem loop_next (round : body state = .inl next) :
    loop body (fuel + 1) state = loop body fuel next := by
  simp only [loop, round]

theorem loop_exit (left : body state = .inr result) :
    loop body (fuel + 1) state = some result := by
  simp only [loop, left]

theorem loop_add (ended : loop body fuel state = some result) (extra : Nat) :
    loop body (fuel + extra) state = some result := by
  induction fuel generalizing state with
  | zero => contradiction
  | succ fuel ih =>
      rw [Nat.add_right_comm]
      cases round : body state with
      | inl next =>
          rw [loop_next round] at ended ⊢
          exact ih ended
      | inr value =>
          rw [loop_exit round] at ended ⊢
          exact ended

/-- A result is that of the last round. -/
theorem loop_reached (ended : loop body fuel state = some result) :
    ∃ last, Reached body state last ∧ body last = .inr result := by
  induction fuel generalizing state with
  | zero => contradiction
  | succ fuel ih =>
      cases round : body state with
      | inl next =>
          rw [loop_next round] at ended
          obtain ⟨last, reached, left⟩ := ih ended
          exact ⟨last, reached.later round, left⟩
      | inr value =>
          rw [loop_exit round] at ended
          exact ⟨state, .start, by rw [round, Option.some.inj ended]⟩

/-- What a loop returns does not depend on how much fuel it was given. -/
theorem loop_unique {more : Nat} {again : β} (ended : loop body fuel state = some result)
    (endedAgain : loop body more state = some again) : result = again := by
  have first := loop_add ended more
  have second := loop_add endedAgain fuel
  rw [Nat.add_comm] at second
  exact Option.some.inj (first.symm.trans second)

/-- The invariant rule for a loop that came to its end. -/
theorem loop_invariant {property : α → Prop} {outcome : β → Prop}
    (kept : ∀ state next, property state → body state = .inl next → property next)
    (left : ∀ state result, property state → body state = .inr result → outcome result)
    (ended : loop body fuel state = some result) (initial : property state) : outcome result := by
  induction fuel generalizing state with
  | zero => contradiction
  | succ fuel ih =>
      cases round : body state with
      | inl next =>
          rw [loop_next round] at ended
          exact ih ended (kept state next initial round)
      | inr value =>
          rw [loop_exit round] at ended
          exact Option.some.inj ended ▸ left state value initial round

/-- The same for a loop whose rounds may fail, and that is cut off with an error. -/
theorem loop_ok_invariant {ε : Type w} {body : α → α ⊕ Except ε β} {error : ε}
    {property : α → Prop} {outcome : β → Prop}
    (kept : ∀ state next, property state → body state = .inl next → property next)
    (left : ∀ state result, property state → body state = .inr (.ok result) → outcome result)
    (ended : (loop body fuel state).getD (.error error) = .ok result) (initial : property state) :
    outcome result := by
  cases run : loop body fuel state with
  | none =>
      rw [run] at ended
      cases ended
  | some last =>
      rw [run] at ended
      have same : last = .ok result := ended
      subst same
      exact @loop_invariant _ _ _ _ _ _ property (fun last => ∀ result, last = .ok result → outcome result)
        kept (fun state last inside round result same => left state result inside (same ▸ round))
        run initial result rfl

end WindOs.Data
