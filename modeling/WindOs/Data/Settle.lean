import Mathlib.Order.Lattice
import WindOs.Data.Loop

namespace WindOs.Data

universe u v w

/-! # Computations that come to one result

A fuelled computation that fails with `error` where its fuel does not last.  It settles on
a result if it returns nothing else, and does return it from some amount of fuel on.  The
fuel may be a pair, of the fuel for the rounds of a loop and of that for their number.
-/

structure Settles {ι : Type u} [LE ι] {ε : Type w} {α : Type v} (error : ε)
    (run : ι → Except ε α) (result : α) : Prop where
  cut : ∀ fuel, run fuel = .error error ∨ run fuel = .ok result
  ends : ∃ enough, ∀ fuel, enough ≤ fuel → run fuel = .ok result

namespace Settles

variable {ι : Type u} [SemilatticeSup ι] {ε : Type w} {α β σ : Type v} {error : ε}
  {run : ι → Except ε α} {next : ι → α → Except ε β} {a : α} {b : β} {fuel : ι}

theorem returns [Nonempty ι] : Settles error (fun _ : ι => .ok a) a :=
  ⟨fun _ => .inr rfl, Classical.arbitrary ι, fun _ _ => rfl⟩

theorem result (settles : Settles error run a) (finished : run fuel ≠ .error error) :
    run fuel = .ok a :=
  (settles.cut fuel).resolve_left finished

/-- What returns has returned the result. -/
theorem unique {other : α} (settles : Settles error run a) (done : run fuel = .ok other) :
    other = a := by
  have same := settles.result (show run fuel ≠ .error error by rw [done]; exact fun same => nomatch same)
  exact Except.ok.inj (done.symm.trans same)

theorem bind (first : Settles error run a) (second : Settles error (next · a) b) :
    Settles error (fun fuel => run fuel >>= next fuel) b := by
  constructor
  · intro fuel
    rcases first.cut fuel with cut | done
    · exact .inl (by rw [cut]; rfl)
    · have later := second.cut fuel
      rw [done]
      exact later
  · obtain ⟨enough, ended⟩ := first.ends
    obtain ⟨more, endedAgain⟩ := second.ends
    refine ⟨enough ⊔ more, ?_⟩
    intro fuel above
    have later := endedAgain fuel (le_trans le_sup_right above)
    rw [ended fuel (le_trans le_sup_left above)]
    exact later

/-- One fuel for both purposes. -/
theorem diagonal {run : ι × ι → Except ε α} (settles : Settles error run a) :
    Settles error (fun fuel => run (fuel, fuel)) a := by
  obtain ⟨⟨enough, more⟩, ended⟩ := settles.ends
  refine ⟨fun fuel => settles.cut (fuel, fuel), enough ⊔ more, ?_⟩
  intro fuel above
  exact ended (fuel, fuel) ⟨le_trans le_sup_left above, le_trans le_sup_right above⟩

section Loop

variable (body : ι → σ → σ ⊕ Except ε α) {state : σ} {step : ι → Except ε β} {onward : β → σ}

/-- A loop that is left at once. -/
theorem exit [Nonempty ι] (left : ∀ fuel, body fuel state = .inr (.ok a)) :
    Settles error (fun fuel : ι × Nat => (loop (body fuel.1) fuel.2 state).getD (.error error)) a := by
  constructor
  · rintro ⟨fuel, rounds⟩
    cases rounds with
    | zero => exact .inl rfl
    | succ rounds =>
        refine .inr ?_
        rw [loop_exit (left fuel)]
        rfl
  · refine ⟨(Classical.arbitrary ι, 1), ?_⟩
    rintro ⟨fuel, rounds⟩ ⟨-, positive⟩
    obtain ⟨rounds, rfl⟩ : ∃ more, rounds = more + 1 := Nat.exists_eq_add_of_le' positive
    show (loop (body fuel) (rounds + 1) state).getD _ = _
    rw [loop_exit (left fuel)]
    rfl

/-- A round that settles, and then the others. -/
theorem round (first : ∀ fuel, body fuel state = attempt (step fuel) onward)
    (settles : Settles error step b)
    (others : Settles error
      (fun fuel : ι × Nat => (loop (body fuel.1) fuel.2 (onward b)).getD (.error error)) a) :
    Settles error (fun fuel : ι × Nat => (loop (body fuel.1) fuel.2 state).getD (.error error)) a := by
  have again : ∀ {fuel rounds}, step fuel = .ok b →
      loop (body fuel) (rounds + 1) state = loop (body fuel) rounds (onward b) := by
    intro fuel rounds done
    exact loop_next (by rw [first, done]; rfl)
  constructor
  · rintro ⟨fuel, rounds⟩
    cases rounds with
    | zero => exact .inl rfl
    | succ rounds =>
        rcases settles.cut fuel with cut | done
        · refine .inl ?_
          rw [loop_exit (show body fuel state = .inr (.error error) by rw [first, cut]; rfl)]
          rfl
        · rw [again done]
          exact others.cut (fuel, rounds)
  · obtain ⟨enough, ended⟩ := settles.ends
    obtain ⟨⟨more, count⟩, endedAgain⟩ := others.ends
    refine ⟨(enough ⊔ more, count + 1), ?_⟩
    rintro ⟨fuel, rounds⟩ ⟨above, counted⟩
    obtain ⟨rounds, rfl⟩ : ∃ fewer, rounds = fewer + 1 :=
      Nat.exists_eq_add_of_le' (le_trans (Nat.le_add_left 1 count) counted)
    show (loop (body fuel) (rounds + 1) state).getD _ = _
    rw [again (ended fuel (le_trans le_sup_left above))]
    exact endedAgain (fuel, rounds) ⟨le_trans le_sup_right above, Nat.le_of_succ_le_succ counted⟩

end Loop

end Settles

end WindOs.Data
