import Mathlib.Algebra.GroupWithZero.Nat
import Mathlib.Data.Finset.Card
import Mathlib.Data.Fintype.Basic

namespace WindOs.Data

universe u v

/-! # Transition machines

A machine is a partial step function: the label names which agent moves and
which choice it makes, and `none` says that the move is not enabled.  All the
nondeterminism of a system therefore sits in its labels, and its steps stay
executable.
-/

instance neZero_one : NeZero 1 := ⟨Nat.one_ne_zero⟩

instance neZero_two : NeZero 2 := ⟨by decide⟩

structure Machine (σ : Type u) (α : Type v) where
  start : σ → Prop
  step : σ → α → Option σ

namespace Machine

variable {σ : Type u} {α : Type v} {machine : Machine σ α}

inductive Reachable (machine : Machine σ α) : σ → Prop where
  | start {state : σ} (initial : machine.start state) : Reachable machine state
  | step {before after : σ} {label : α} (reached : Reachable machine before)
      (moved : machine.step before label = some after) : Reachable machine after

/-- The invariant rule: what holds initially and is kept by every step from a
state where it holds is true of every reachable state. -/
theorem Reachable.invariant {property : σ → Prop}
    (initial : ∀ state, machine.start state → property state)
    (preserved : ∀ before label after, property before →
      machine.step before label = some after → property after)
    {state : σ} (reached : machine.Reachable state) : property state := by
  induction reached with
  | start started => exact initial _ started
  | step _ moved ih => exact preserved _ _ _ ih moved

/-- Reachable by steps that are all permitted in the state they start from. -/
inductive ReachableWithin (machine : Machine σ α) (permitted : σ → α → Prop) : σ → Prop where
  | start {state : σ} (initial : machine.start state) : ReachableWithin machine permitted state
  | step {before after : σ} {label : α} (reached : ReachableWithin machine permitted before)
      (allowed : permitted before label) (moved : machine.step before label = some after) :
      ReachableWithin machine permitted after

theorem ReachableWithin.invariant {permitted : σ → α → Prop} {property : σ → Prop}
    (initial : ∀ state, machine.start state → property state)
    (preserved : ∀ before label after, property before → permitted before label →
      machine.step before label = some after → property after)
    {state : σ} (reached : machine.ReachableWithin permitted state) : property state := by
  induction reached with
  | start started => exact initial _ started
  | step _ allowed moved ih => exact preserved _ _ _ ih allowed moved

theorem ReachableWithin.reachable {permitted : σ → α → Prop} {state : σ}
    (reached : machine.ReachableWithin permitted state) : machine.Reachable state := by
  induction reached with
  | start initial => exact .start initial
  | step _ _ moved ih => exact .step ih moved

/-- A finite run with its intermediate states numbered from the initial one. -/
structure Trace (machine : Machine σ α) where
  length : Nat
  state : Nat → σ
  label : Nat → α
  start : machine.start (state 0)
  step : ∀ index < length, machine.step (state index) (label index) = some (state (index + 1))

namespace Trace

variable {trace : machine.Trace}

theorem reachable (trace : machine.Trace) {index : Nat} (inside : index ≤ trace.length) :
    machine.Reachable (trace.state index) := by
  induction index with
  | zero => exact .start trace.start
  | succ index ih => exact .step (ih (by omega)) (trace.step index (by omega))

/-- An invariant that also depends on the position in the run. -/
theorem invariant {property : Nat → σ → Prop} (trace : machine.Trace)
    (initial : property 0 (trace.state 0))
    (preserved : ∀ index < trace.length, property index (trace.state index) →
      property (index + 1) (trace.state (index + 1)))
    {index : Nat} (inside : index ≤ trace.length) : property index (trace.state index) := by
  induction index with
  | zero => exact initial
  | succ index ih => exact preserved index (by omega) (ih (by omega))

end Trace

/-- Run a list of labels; `none` as soon as one of them is not enabled. -/
def run (machine : Machine σ α) (state : σ) (labels : List α) : Option σ :=
  labels.foldlM machine.step state

@[simp] theorem run_nil (state : σ) : machine.run state [] = some state := rfl

@[simp] theorem run_cons (state : σ) (label : α) (labels : List α) :
    machine.run state (label :: labels) =
      (machine.step state label).bind (fun next => machine.run next labels) := rfl

theorem run_append (state : σ) (first second : List α) :
    machine.run state (first ++ second) =
      (machine.run state first).bind (fun next => machine.run next second) :=
  List.foldlM_append

theorem Reachable.run {state after : σ} {labels : List α}
    (reached : machine.Reachable state) (ran : machine.run state labels = some after) :
    machine.Reachable after := by
  induction labels generalizing state with
  | nil => cases ran; exact reached
  | cons label labels ih =>
      obtain ⟨next, moved, rest⟩ := Option.bind_eq_some_iff.mp ran
      exact ih (.step reached moved) rest

/-- A run of labels that are permitted wherever they occur. -/
theorem ReachableWithin.run {permitted : σ → α → Prop} {state after : σ} {labels : List α}
    (reached : machine.ReachableWithin permitted state)
    (always : ∀ label ∈ labels, ∀ state, permitted state label)
    (ran : machine.run state labels = some after) : machine.ReachableWithin permitted after := by
  induction labels generalizing state with
  | nil => cases ran; exact reached
  | cons label labels ih =>
      obtain ⟨next, moved, rest⟩ := Option.bind_eq_some_iff.mp ran
      exact ih (.step reached (always label (by simp) state) moved)
        (fun other inside => always other (by simp [inside])) rest

/-- Number the states of a run that is given by its labels. -/
def Trace.ofLabels (machine : Machine σ α) (state : σ) (initial : machine.start state)
    (fallback : α) (labels : List α) (enabled : (machine.run state labels).isSome) :
    machine.Trace where
  length := labels.length
  state index := (machine.run state (labels.take index)).getD state
  label index := labels.getD index fallback
  start := initial
  step := by
    intro index inside
    have split : labels = labels.take (index + 1) ++ labels.drop (index + 1) :=
      (List.take_append_drop _ _).symm
    rw [split, run_append] at enabled
    cases later : machine.run state (labels.take (index + 1)) with
    | none => simp [later] at enabled
    | some after =>
        rw [List.take_succ_eq_append_getElem inside, run_append] at later
        obtain ⟨before, ran, moved⟩ := Option.bind_eq_some_iff.mp later
        have single : machine.step before labels[index] = some after := by
          simpa using moved
        simp only [ran, Option.getD_some, List.getD_eq_getElem?_getD,
          List.getElem?_eq_getElem inside]
        exact single

end Machine

section Tally

variable {π : Type u} {β : Type v} [Fintype π]

/-- How many members are at a position that passes the test. -/
def tally (position : π → β) (test : β → Bool) : Nat :=
  (Finset.univ.filter (fun member => test (position member) = true)).card

/-- Moving one member changes the tally by that member alone. -/
theorem tally_update [DecidableEq π] (position : π → β) (test : β → Bool) (member : π) (next : β) :
    tally (Function.update position member next) test + (if test (position member) then 1 else 0) =
      tally position test + (if test next then 1 else 0) := by
  let others := (Finset.univ.erase member).filter (fun other => test (position other) = true)
  have split : ∀ place : π → β, (∀ other, other ≠ member → place other = position other) →
      tally place test = others.card + (if test (place member) then 1 else 0) := by
    intro place agree
    have whole : (Finset.univ : Finset π) = insert member (Finset.univ.erase member) := by simp
    have same : (Finset.univ.erase member).filter (fun other => test (place other) = true) =
        others := by
      apply Finset.filter_congr
      intro other different
      rw [agree other (Finset.ne_of_mem_erase different)]
    rw [tally, whole, Finset.filter_insert, same]
    split
    · rw [Finset.card_insert_of_notMem (by simp [others])]
    · rfl
  rw [split position (fun _ _ => rfl),
    split (Function.update position member next) (fun other different => by simp [different])]
  simp only [Function.update_self]
  omega

theorem tally_pos_iff {position : π → β} {test : β → Bool} :
    0 < tally position test ↔ ∃ member, test (position member) = true := by
  simp [tally, Finset.card_pos, Finset.filter_nonempty_iff]

/-- Distinct members that pass the test are all counted. -/
theorem length_le_tally [DecidableEq π] {position : π → β} {test : β → Bool} {members : List π}
    (nodup : members.Nodup) (passes : ∀ member ∈ members, test (position member) = true) :
    members.length ≤ tally position test := by
  rw [← List.toFinset_card_of_nodup nodup]
  apply Finset.card_le_card
  intro member inside
  simp [passes member (List.mem_toFinset.mp inside)]

theorem tally_eq_zero_iff {position : π → β} {test : β → Bool} :
    tally position test = 0 ↔ ∀ member, test (position member) = false := by
  simp [tally, Finset.card_eq_zero, Finset.filter_eq_empty_iff]

end Tally

end WindOs.Data
