import WindOs.Sync.Monitor

namespace WindOs.Sync

open Data

universe u v

variable {π : Type v} {κ : Type u}

/-! # The baton of a monitor

The right to be inside is a single baton.  It lies in one of the semaphores as
a positive value, or one process holds it.  The counters are only touched by
the holder, which is why they stay exact although they are updated outside `P`
and `V`.
-/

/-- Past one of the three calls of `P`, and before the next `V`. -/
def Pc.inside : Pc κ → Bool
  | .enter | .entering => false
  | .waitSleep _ | .waiting _ => false
  | .signalSleep _ | .signaling _ => false
  | _ => true

/-- The semaphore a process has called `P` on and not yet returned from. -/
def Pc.pending : Pc κ → Option (MonitorSem κ)
  | .entering => some .mutex
  | .waiting cond => some (.xSem cond)
  | .signaling _ => some .next
  | _ => none

/-- The semaphore of the `P` that a process executes next. -/
def Pc.wants : Pc κ → Option (MonitorSem κ)
  | .enter => some .mutex
  | .waitSleep cond => some (.xSem cond)
  | .signalSleep _ => some .next
  | _ => none

/-- Where a process goes on once its `P` lets it through. -/
def Pc.granted : Pc κ → Pc κ
  | .waitSleep cond | .waiting cond => .waitUncount cond
  | .signalSleep cond | .signaling cond => .signalUncount cond
  | _ => .body

/-- The semaphore of the `V` that a process executes next. -/
def Pc.gives : Pc κ → Option (MonitorSem κ)
  | .waitNext _ | .leaveNext => some .next
  | .waitMutex _ | .leaveMutex => some .mutex
  | .signalWake cond => some (.xSem cond)
  | _ => none

/-- Between the two updates of `next_count` in `signal`. -/
def Pc.countsNext : Pc κ → Bool
  | .signalWake _ | .signalSleep _ | .signaling _ | .signalUncount _ => true
  | _ => false

/-- Between the two updates of `x_count` in `wait(cond)`. -/
def Pc.countsX [DecidableEq κ] (cond : κ) : Pc κ → Bool
  | .waitTest c | .waitNext c | .waitMutex c | .waitSleep c | .waiting c | .waitUncount c => c = cond
  | _ => false

inductive Holder (π : Type v) (κ : Type u) where
  | process (p : π)
  | semaphore (s : MonitorSem κ)

namespace Monitor

/-- Inside the monitor.  A process that a `V` has woken counts from the `V` on,
before its own `P` has returned. -/
def Active (monitor : Monitor π κ) (p : π) : Prop :=
  (monitor.pc p).inside = true ∨
    ((monitor.pc p).pending ≠ none ∧ monitor.sems.state p ≠ .taskSleeping)

structure Baton (monitor : Monitor π κ) (holder : Holder π κ) : Prop where
  consistent : monitor.sems.Consistent
  queued : ∀ p s, p ∈ (monitor.sems.sem s).queue → (monitor.pc p).pending = some s
  active : ∀ p, monitor.Active p ↔ holder = .process p
  positive : ∀ s, 0 < (monitor.sems.sem s).value ↔ holder = .semaphore s
  single : ∀ s, (monitor.sems.sem s).value ≤ 1

variable [DecidableEq π] {monitor after : Monitor π κ} {holder : Holder π κ}
variable {p q : π} {s : MonitorSem κ} {next asleep passed : Pc κ}

@[simp] theorem goto_sems : (monitor.goto p next).sems = monitor.sems := rfl

@[simp] theorem goto_pc : (monitor.goto p next).pc = Function.update monitor.pc p next := rfl

theorem pending_inside {pc : Pc κ} (pending : pc.pending ≠ none) : pc.inside = false := by
  cases pc <;> simp_all [Pc.pending, Pc.inside]

theorem wants_outside {pc : Pc κ} (wants : pc.wants = some s) :
    pc.inside = false ∧ pc.pending = none := by
  cases pc <;> simp_all [Pc.wants, Pc.inside, Pc.pending]

theorem granted_inside (pc : Pc κ) : pc.granted.inside = true := by
  cases pc <;> rfl

theorem gives_inside {pc : Pc κ} (gives : pc.gives = some s) : pc.inside = true := by
  cases pc <;> simp_all [Pc.gives, Pc.inside]

theorem Active.other (moved : after.pc = Function.update monitor.pc p next)
    (states : ∀ r, r ≠ p → after.sems.state r = monitor.sems.state r) (different : q ≠ p) :
    after.Active q ↔ monitor.Active q := by
  simp only [Active, moved, Function.update_of_ne different, states q different]

/-- The holder goes on inside the monitor. -/
theorem Baton.stay (baton : monitor.Baton holder) (here : monitor.Active p)
    (awake : monitor.sems.state p ≠ .taskSleeping) (there : next.inside = true)
    (sems : after.sems = monitor.sems) (moved : after.pc = Function.update monitor.pc p next) :
    after.Baton holder := by
  refine ⟨sems ▸ baton.consistent, ?_, ?_, sems ▸ baton.positive, sems ▸ baton.single⟩
  · intro q s member
    rw [sems] at member
    have different : q ≠ p := fun same => baton.consistent.not_queued (same ▸ awake) member
    rw [moved, Function.update_of_ne different]
    exact baton.queued q s member
  · intro q
    by_cases same : q = p
    · subst same
      rw [← baton.active q]
      simp only [Active, moved, Function.update_self, there, true_or, true_iff]
      exact here
    · rw [Active.other moved (fun r _ => by rw [sems]) same]
      exact baton.active q

variable [DecidableEq κ]

/-- `P` by a process outside: it takes the baton from the semaphore, or joins
the queue and leaves the baton where it is. -/
theorem Baton.acquire (baton : monitor.Baton holder) (outside : ¬ monitor.Active p)
    (awake : monitor.sems.state p ≠ .taskSleeping)
    (sleeps : asleep.pending = some s) (passes : passed.inside = true) :
    (holder = .semaphore s ∧ (monitor.doP p s asleep passed).Baton (.process p) ∧
        (monitor.doP p s asleep passed).pc = Function.update monitor.pc p passed) ∨
      (holder ≠ .semaphore s ∧ (monitor.doP p s asleep passed).Baton holder ∧
        (monitor.doP p s asleep passed).pc = Function.update monitor.pc p asleep) := by
  have consistent : (monitor.doP p s asleep passed).sems.Consistent := baton.consistent.P awake
  have absent : ∀ s, p ∉ (monitor.sems.sem s).queue := fun s => baton.consistent.not_queued awake
  by_cases positive : 0 < (monitor.sems.sem s).value
  · have held := (baton.positive s).mp positive
    have one : (monitor.sems.sem s).value = 1 := by
      have bound := baton.single s
      omega
    have moved : (monitor.doP p s asleep passed).pc = Function.update monitor.pc p passed := by
      simp [doP, one]
    have sems : (monitor.doP p s asleep passed).sems = _ := Sems.P_pass positive
    refine .inl ⟨held, ⟨consistent, ?_, ?_, ?_, ?_⟩, moved⟩
    · intro q t member
      have member : q ∈ (monitor.sems.sem t).queue := by
        rw [sems] at member
        by_cases same : t = s
        · subst same; simpa using member
        · simpa [same] using member
      have different : q ≠ p := fun same => absent t (same ▸ member)
      rw [moved, Function.update_of_ne different]
      exact baton.queued q t member
    · intro q
      by_cases same : q = p
      · subst same
        simp [Active, moved, passes]
      · rw [Active.other moved (fun r _ => by rw [sems]) same, baton.active, held]
        simp [Ne.symm same]
    · intro t
      rw [sems]
      by_cases same : t = s
      · subst same
        simp [one]
      · simp only [Function.update_of_ne same, baton.positive, held]
        simp [Ne.symm same]
    · intro t
      rw [sems]
      by_cases same : t = s
      · subst same
        simp [one]
      · simpa [same] using baton.single t
  · have exhausted : (monitor.sems.sem s).value ≤ 0 := by omega
    have elsewhere : holder ≠ .semaphore s := fun held => positive ((baton.positive s).mpr held)
    have moved : (monitor.doP p s asleep passed).pc = Function.update monitor.pc p asleep := by
      have short : (monitor.sems.sem s).value - 1 < 0 := by omega
      simp [doP, short]
    have sems : (monitor.doP p s asleep passed).sems = _ := Sems.P_block exhausted
    have sleeping : (monitor.doP p s asleep passed).sems.state p = .taskSleeping := by
      rw [sems]
      simp
    refine .inr ⟨elsewhere, ⟨consistent, ?_, ?_, ?_, ?_⟩, moved⟩
    · intro q t member
      by_cases here : q = p
      · subst here
        have place : t = s := by
          by_contra different
          rw [sems] at member
          simp only [Function.update_of_ne different] at member
          exact absent t member
        rw [moved, Function.update_self, place]
        exact sleeps
      · rw [moved, Function.update_of_ne here]
        apply baton.queued q t
        rw [sems] at member
        by_cases same : t = s
        · subst same; simpa [here] using member
        · simpa [same] using member
    · intro q
      by_cases same : q = p
      · subst same
        rw [← baton.active q]
        have notInside : asleep.inside = false := pending_inside (by simp [sleeps])
        simp only [Active, moved, Function.update_self, notInside, sleeping, ne_eq,
          not_true_eq_false, and_false, Bool.false_eq_true, or_self, false_iff]
        exact outside
      · rw [Active.other moved (fun r different => by rw [sems]; simp [different]) same]
        exact baton.active q
    · intro t
      rw [sems]
      by_cases same : t = s
      · subst same
        simp only [Function.update_self]
        constructor
        · intro impossible
          omega
        · intro held
          exact absurd held elsewhere
      · simpa [same] using baton.positive t
    · intro t
      rw [sems]
      by_cases same : t = s
      · subst same
        simp only [Function.update_self]
        omega
      · simpa [same] using baton.single t

/-- `V` by the holder: the baton goes to the process at the front of the queue,
or into the semaphore when nobody is queued. -/
theorem Baton.release (baton : monitor.Baton (.process p))
    (awake : monitor.sems.state p ≠ .taskSleeping)
    (outside : next.inside = false) (idle : next.pending = none) :
    ((monitor.sems.sem s).queue = [] ∧ (monitor.doV p s next).Baton (.semaphore s)) ∨
      ∃ pcb rest, (monitor.sems.sem s).queue = pcb :: rest ∧ pcb ≠ p ∧
        (monitor.doV p s next).Baton (.process pcb) := by
  have consistent : (monitor.doV p s next).sems.Consistent := baton.consistent.V
  have absent : ∀ s, p ∉ (monitor.sems.sem s).queue := fun s => baton.consistent.not_queued awake
  have notPositive : ∀ t, (monitor.sems.sem t).value ≤ 0 := by
    intro t
    by_contra above
    have held := (baton.positive t).mp (by omega)
    cases held
  have moved : (monitor.doV p s next).pc = Function.update monitor.pc p next := rfl
  have left : ¬ (monitor.doV p s next).Active p := by
    simp [Active, moved, outside, idle]
  by_cases nonneg : 0 ≤ (monitor.sems.sem s).value
  · have zero : (monitor.sems.sem s).value = 0 := by
      have bound := notPositive s
      omega
    have sems : (monitor.doV p s next).sems = _ := Sems.V_free nonneg
    refine .inl ⟨baton.consistent.queue_eq_nil nonneg, ⟨consistent, ?_, ?_, ?_, ?_⟩⟩
    · intro q t member
      have member : q ∈ (monitor.sems.sem t).queue := by
        rw [sems] at member
        by_cases same : t = s
        · subst same; simpa using member
        · simpa [same] using member
      have different : q ≠ p := fun same => absent t (same ▸ member)
      rw [moved, Function.update_of_ne different]
      exact baton.queued q t member
    · intro q
      by_cases same : q = p
      · subst same
        simp [left]
      · rw [Active.other moved (fun r _ => by rw [sems]) same, baton.active]
        simp [Ne.symm same]
    · intro t
      rw [sems]
      by_cases same : t = s
      · subst same
        simp [zero]
      · have bound := notPositive t
        simp only [Function.update_of_ne same, Holder.semaphore.injEq, Ne.symm same, iff_false]
        omega
    · intro t
      rw [sems]
      by_cases same : t = s
      · subst same
        simp [zero]
      · simpa [same] using baton.single t
  · have negative : (monitor.sems.sem s).value < 0 := by omega
    obtain ⟨pcb, rest, queue⟩ := baton.consistent.queue_eq_cons negative
    have sems : (monitor.doV p s next).sems = _ := Sems.V_wake negative queue
    have different : pcb ≠ p := fun same => absent s (by simp [queue, ← same])
    have pending : (monitor.pc pcb).pending = some s := baton.queued pcb s (by simp [queue])
    have nodup : (pcb :: rest).Nodup := queue ▸ baton.consistent.nodup s
    refine .inr ⟨pcb, rest, queue, different, ⟨consistent, ?_, ?_, ?_, ?_⟩⟩
    · intro q t member
      have member : q ∈ (monitor.sems.sem t).queue := by
        rw [sems] at member
        by_cases same : t = s
        · subst same
          rw [queue]
          exact List.mem_cons_of_mem _ (by simpa using member)
        · simpa [same] using member
      have other : q ≠ p := fun same => absent t (same ▸ member)
      rw [moved, Function.update_of_ne other]
      exact baton.queued q t member
    · intro q
      by_cases same : q = p
      · subst same
        simp [left, different]
      · by_cases woken : q = pcb
        · subst woken
          simp [Active, moved, Function.update_of_ne same, pending, sems]
        · have unchanged : (monitor.doV p s next).Active q ↔ monitor.Active q := by
            simp only [Active, moved, Function.update_of_ne same, sems,
              Function.update_of_ne woken]
          rw [unchanged, baton.active]
          simp [Ne.symm same, Ne.symm woken]
    · intro t
      rw [sems]
      have bound := notPositive t
      by_cases same : t = s
      · subst same
        simp only [Function.update_self, reduceCtorEq, iff_false]
        omega
      · simp only [Function.update_of_ne same, reduceCtorEq, iff_false]
        omega
    · intro t
      rw [sems]
      by_cases same : t = s
      · subst same
        simp only [Function.update_self]
        omega
      · simpa [same] using baton.single t

/-- The program counter of the moving process and nothing else decides which of
the four kinds of step is taken. -/
inductive Move (monitor : Monitor π κ) (p : π) : Monitor π κ → Prop where
  | stay {next : Pc κ} {nextCount : Int} {xCount : κ → Int}
      (here : (monitor.pc p).inside = true) (there : next.inside = true) :
      Move monitor p { monitor.goto p next with nextCount, xCount }
  | resume {next : Pc κ} (here : (monitor.pc p).pending ≠ none) (there : next.inside = true) :
      Move monitor p (monitor.goto p next)
  | acquire {s : MonitorSem κ} {asleep passed : Pc κ} (here : (monitor.pc p).wants = some s)
      (sleeps : asleep.pending = some s) (passes : (monitor.pc p).granted = passed) :
      Move monitor p (monitor.doP p s asleep passed)
  | release {s : MonitorSem κ} {next : Pc κ} (here : (monitor.pc p).gives = some s)
      (outside : next.inside = false) (idle : next.pending = none) :
      Move monitor p (monitor.doV p s next)

theorem step_move {label : Label π κ} (moved : monitor.step label = some after) :
    monitor.sems.state label.process ≠ .taskSleeping ∧ monitor.Move label.process after := by
  obtain ⟨p, target⟩ := label
  by_cases asleep : monitor.sems.state p = .taskSleeping
  · simp [step, asleep] at moved
  refine ⟨asleep, ?_⟩
  simp only [step, if_neg asleep] at moved
  cases target with
  | some target =>
      simp only [call] at moved
      split at moved
      · next here =>
          cases target <;> cases moved <;> exact .stay (by simp [here, Pc.inside]) rfl
      · contradiction
  | none =>
      simp only [execute] at moved
      cases here : monitor.pc p <;> simp only [here] at moved
      case body => contradiction
      case enter | waitSleep | signalSleep =>
          cases moved
          exact .acquire (by simp [here, Pc.wants]) rfl (by simp [here, Pc.granted])
      case entering | waiting | signaling =>
          cases moved
          exact .resume (by simp [here, Pc.pending]) rfl
      case waitNext | waitMutex | signalWake | leaveNext | leaveMutex =>
          cases moved
          exact .release (by simp [here, Pc.gives]) rfl rfl
      case waitCount | waitUncount | waitPrint | signalCount | signalUncount =>
          cases moved
          exact .stay (by simp [here, Pc.inside]) rfl
      case waitTest | signalTest | leaveTest =>
          split at moved <;> cases moved <;> exact .stay (by simp [here, Pc.inside]) rfl

theorem step_execute {label : Label π κ} (moved : monitor.step label = some after)
    (notBody : monitor.pc label.process ≠ .body) : monitor.execute label.process = some after := by
  have awake := (step_move moved).1
  cases target : label.call with
  | none => simpa [step, awake, target] using moved
  | some target' => simp [step, awake, target, call, notBody] at moved

/-- What the test before a `V` has found, and what `signal` relies on. -/
def Known (monitor : Monitor π κ) : Pc κ → Prop
  | .waitNext _ | .leaveNext => 0 < monitor.nextCount
  | .waitMutex _ | .leaveMutex => monitor.nextCount ≤ 0
  | .signalCount cond | .signalWake cond => 0 < monitor.xCount cond
  | _ => True

omit [DecidableEq π] [DecidableEq κ] in
theorem known_outside {pc : Pc κ} (outside : pc.inside = false) : monitor.Known pc := by
  cases pc <;> simp_all [Pc.inside, Known]

omit [DecidableEq π] [DecidableEq κ] in
theorem Known.congr {pc : Pc κ} (known : monitor.Known pc)
    (nextCount : after.nextCount = monitor.nextCount) (xCount : after.xCount = monitor.xCount) :
    after.Known pc := by
  cases pc <;> simp_all [Known]

/-- Each counter follows the program counter of the moving process. -/
theorem step_counters {label : Label π κ} (moved : monitor.step label = some after)
    (known : monitor.Known (monitor.pc label.process)) :
    ∃ next, after.pc = Function.update monitor.pc label.process next ∧ after.Known next ∧
      after.nextCount + (monitor.pc label.process).countsNext.toInt =
        monitor.nextCount + next.countsNext.toInt ∧
      ∀ cond, after.xCount cond + ((monitor.pc label.process).countsX cond).toInt =
        monitor.xCount cond + (next.countsX cond).toInt := by
  obtain ⟨p, target⟩ := label
  by_cases asleep : monitor.sems.state p = .taskSleeping
  · simp [step, asleep] at moved
  simp only [step, if_neg asleep] at moved
  cases target with
  | some target =>
      simp only [call] at moved
      split at moved
      · next here =>
          cases target <;> cases moved <;>
            exact ⟨_, rfl, trivial, by simp [here, Pc.countsNext, goto], by
              simp [here, Pc.countsX, goto]⟩
      · contradiction
  | none =>
      simp only [execute] at moved
      cases here : monitor.pc p <;> simp only [here] at moved known
      case body => contradiction
      case enter | waitSleep | signalSleep =>
          cases moved
          refine ⟨_, rfl, ?_, ?_, ?_⟩
          · split <;> trivial
          · split <;> simp [Pc.countsNext, goto, doP]
          · intro other
            split <;> simp [Pc.countsX, goto, doP]
      case waitNext | waitMutex | signalWake | leaveNext | leaveMutex =>
          cases moved
          exact ⟨_, rfl, trivial, by simp [Pc.countsNext, goto, doV], by
            simp [Pc.countsX, goto, doV]⟩
      case waitTest | signalTest | leaveTest =>
          split at moved
          · next found =>
              cases moved
              exact ⟨_, rfl, found,
                by simp [Pc.countsNext, goto], by simp [Pc.countsX, goto]⟩
          · next missing =>
              cases moved
              exact ⟨_, rfl, by first | exact Int.not_lt.mp missing | trivial,
                by simp [Pc.countsNext, goto], by simp [Pc.countsX, goto]⟩
      case waitCount cond | waitUncount cond =>
          cases moved
          refine ⟨_, rfl, trivial, by simp [Pc.countsNext, goto, addXCount], ?_⟩
          intro other
          by_cases same : other = cond
          · subst same
            simp only [Pc.countsX, goto, addXCount, Function.update_self, decide_true, Bool.toInt_true,
              Bool.toInt_false]
            omega
          · simp [Pc.countsX, goto, addXCount, same, Ne.symm same]
      case signalCount =>
          cases moved
          exact ⟨_, rfl, known, by simp [Pc.countsNext, goto, addNextCount],
            by simp [Pc.countsX, goto, addNextCount]⟩
      case signalUncount =>
          cases moved
          refine ⟨_, rfl, trivial, ?_, by simp [Pc.countsX, goto, addNextCount]⟩
          simp only [Pc.countsNext, goto, addNextCount, Bool.toInt_true, Bool.toInt_false]
          omega
      case entering | waiting | waitPrint | signaling =>
          cases moved
          exact ⟨_, rfl, trivial, by simp [Pc.countsNext, goto], by simp [Pc.countsX, goto]⟩

theorem Move.quiet (move : monitor.Move p after) (outside : (monitor.pc p).inside = false) :
    after.nextCount = monitor.nextCount ∧ after.xCount = monitor.xCount := by
  cases move with
  | stay here => simp [outside] at here
  | resume => exact ⟨rfl, rfl⟩
  | acquire => exact ⟨rfl, rfl⟩
  | release => exact ⟨rfl, rfl⟩

/-! ## The invariant of every reachable state -/

/-- Where the baton lies in a semaphore, somebody is on the way to fetch it;
it lies in `mutex` only when no signaller waits for it. -/
def Fetched (monitor : Monitor π κ) : Holder π κ → Prop
  | .process _ => True
  | .semaphore .mutex => monitor.nextCount ≤ 0
  | .semaphore s => ∃ p, (monitor.pc p).wants = some s

omit [DecidableEq π] [DecidableEq κ] in
theorem Fetched.carry (fetched : monitor.Fetched (.semaphore s))
    (count : after.nextCount = monitor.nextCount)
    (wanted : ∀ q, (monitor.pc q).wants = some s → (after.pc q).wants = some s) :
    after.Fetched (.semaphore s) := by
  cases s with
  | mutex =>
      simp only [Fetched] at fetched ⊢
      rwa [count]
  | next =>
      obtain ⟨q, wants⟩ := fetched
      exact ⟨q, wanted q wants⟩
  | xSem cond =>
      obtain ⟨q, wants⟩ := fetched
      exact ⟨q, wanted q wants⟩

structure Sound [Fintype π] (monitor : Monitor π κ) (holder : Holder π κ) : Prop where
  baton : monitor.Baton holder
  fetched : monitor.Fetched holder
  known : ∀ p, monitor.Known (monitor.pc p)
  nextCount : monitor.nextCount = tally monitor.pc Pc.countsNext
  xCount : ∀ cond, monitor.xCount cond = tally monitor.pc (Pc.countsX cond)

section Preservation

variable [Fintype π]

omit [DecidableEq π] in
theorem Sound.inactive (sound : monitor.Sound (.process p)) (different : q ≠ p) :
    (monitor.pc q).inside = false ∧
      ((monitor.pc q).pending ≠ none → monitor.sems.state q = .taskSleeping) := by
  have outside : ¬ monitor.Active q := by
    rw [sound.baton.active]
    simp [Ne.symm different]
  simp only [Active, not_or, Bool.not_eq_true, not_and, ne_eq, not_not] at outside
  exact outside

omit [DecidableEq π] in
/-- A process counted by `next_count` or by an `x_count` that is asleep nowhere
still has its `P` before it. -/
theorem Sound.not_pending (sound : monitor.Sound (.process p)) (different : q ≠ p)
    (empty : (monitor.sems.sem s).queue = []) : (monitor.pc q).pending ≠ some s := by
  intro pending
  have asleep := (sound.inactive different).2 (by simp [pending])
  obtain ⟨t, member⟩ := (sound.baton.consistent.sleeping q).mp asleep
  have place := sound.baton.queued q t member
  rw [pending] at place
  cases place
  simp [empty] at member

omit [DecidableEq π] in
/-- When nobody sleeps on the semaphore that the holder is about to give to, a
counted process has its `P` still before it. -/
theorem Sound.fetcher (sound : monitor.Sound (.process p))
    (gives : (monitor.pc p).gives = some s) (empty : (monitor.sems.sem s).queue = []) :
    monitor.Fetched (.semaphore s) := by
  have known := sound.known p
  cases s with
  | mutex =>
      cases here : monitor.pc p <;> simp_all [Pc.gives, Known, Fetched]
  | next =>
      have counted : 0 < tally monitor.pc Pc.countsNext := by
        have exact := sound.nextCount
        cases here : monitor.pc p <;> simp_all [Pc.gives, Known]
      obtain ⟨q, counted⟩ := tally_pos_iff.mp counted
      have different : q ≠ p := by
        rintro rfl
        cases here : monitor.pc q <;> simp_all [Pc.gives, Pc.countsNext]
      have outside := (sound.inactive different).1
      have idle := sound.not_pending different empty
      refine ⟨q, ?_⟩
      cases here : monitor.pc q <;> simp_all [Pc.countsNext, Pc.inside, Pc.pending, Pc.wants]
  | xSem cond =>
      have counted : 0 < tally monitor.pc (Pc.countsX cond) := by
        have exact := sound.xCount cond
        cases here : monitor.pc p <;> simp_all [Pc.gives, Known]
      obtain ⟨q, counted⟩ := tally_pos_iff.mp counted
      have different : q ≠ p := by
        rintro rfl
        cases here : monitor.pc q <;> simp_all [Pc.gives, Pc.countsX]
      have outside := (sound.inactive different).1
      have idle := sound.not_pending different empty
      refine ⟨q, ?_⟩
      cases here : monitor.pc q <;> simp_all [Pc.countsX, Pc.inside, Pc.pending, Pc.wants]

omit [DecidableEq π] in
theorem Sound.initial : (monitorInit : Monitor π κ).Sound (.semaphore .mutex) := by
  have consistent : (monitorInit : Monitor π κ).sems.Consistent := by
    apply Sems.Initial.consistent
    refine ⟨?_, ?_, ?_⟩
    · intro s
      cases s <;> rfl
    · intro s
      cases s <;> simp [monitorInit, semaphoreInit]
    · intro p
      simp [monitorInit]
  refine ⟨⟨consistent, ?_, ?_, ?_, ?_⟩, ?_, ?_, ?_, ?_⟩
  · intro p s member
    cases s <;> simp [monitorInit, semaphoreInit] at member
  · intro p
    simp [Active, monitorInit, Pc.inside, Pc.pending]
  · intro s
    cases s <;> simp [monitorInit, semaphoreInit]
  · intro s
    cases s <;> simp [monitorInit, semaphoreInit]
  · exact Int.le_refl 0
  · intro p
    trivial
  · simp [monitorInit, tally, Pc.countsNext]
  · intro cond
    simp [monitorInit, tally, Pc.countsX]

/-- How a step by `p` moves the baton. -/
inductive BatonStep (monitor : Monitor π κ) (p : π) (holder : Holder π κ) (after : Monitor π κ) :
    Holder π κ → Prop where
  | keep (held : holder = .process p) : BatonStep monitor p holder after (.process p)
  | take {s : MonitorSem κ} (wants : (monitor.pc p).wants = some s) (held : holder = .semaphore s)
      (granted : after.pc p = (monitor.pc p).granted) : BatonStep monitor p holder after (.process p)
  | block {s : MonitorSem κ} (wants : (monitor.pc p).wants = some s)
      (elsewhere : holder ≠ .semaphore s) (pending : (after.pc p).pending = some s) :
      BatonStep monitor p holder after holder
  | drop {s : MonitorSem κ} (gives : (monitor.pc p).gives = some s) (held : holder = .process p)
      (empty : (monitor.sems.sem s).queue = []) : BatonStep monitor p holder after (.semaphore s)
  | pass {s : MonitorSem κ} {pcb : π} {rest : List π} (gives : (monitor.pc p).gives = some s)
      (held : holder = .process p) (queue : (monitor.sems.sem s).queue = pcb :: rest)
      (different : pcb ≠ p) : BatonStep monitor p holder after (.process pcb)

theorem Sound.step_baton {label : Label π κ} (sound : monitor.Sound holder)
    (moved : monitor.step label = some after) :
    ∃ later, after.Baton later ∧ after.Fetched later ∧
      monitor.BatonStep label.process holder after later := by
  obtain ⟨awake, move⟩ := step_move moved
  cases move with
  | stay here there =>
      have active : monitor.Active label.process := .inl here
      have held := (sound.baton.active _).mp active
      subst held
      exact ⟨_, sound.baton.stay active awake there rfl rfl, trivial, .keep rfl⟩
  | resume here there =>
      have active : monitor.Active label.process := .inr ⟨here, awake⟩
      have held := (sound.baton.active _).mp active
      subst held
      exact ⟨_, sound.baton.stay active awake there rfl rfl, trivial, .keep rfl⟩
  | @acquire s asleep passed here sleeps passes =>
      subst passes
      obtain ⟨notInside, idle⟩ := wants_outside here
      have outside : ¬ monitor.Active label.process := by
        simp [Active, notInside, idle]
      cases sound.baton.acquire outside awake sleeps (granted_inside _) with
      | inl taken =>
          obtain ⟨held, baton, moved⟩ := taken
          exact ⟨_, baton, trivial, .take here held (by simp [moved])⟩
      | inr blocked =>
          obtain ⟨elsewhere, baton, moved⟩ := blocked
          refine ⟨holder, baton, ?_, .block here elsewhere (by simp [moved, sleeps])⟩
          cases holder with
          | process q => trivial
          | semaphore t =>
              refine Fetched.carry sound.fetched rfl ?_
              intro q wants
              have different : q ≠ label.process := by
                rintro rfl
                rw [here] at wants
                exact elsewhere (by rw [Option.some.inj wants])
              rw [moved, Function.update_of_ne different]
              exact wants
  | @release s next here outside idle =>
      have active : monitor.Active label.process := .inl (gives_inside here)
      have held := (sound.baton.active _).mp active
      subst held
      cases sound.baton.release awake outside idle with
      | inl dropped =>
          obtain ⟨empty, baton⟩ := dropped
          refine ⟨_, baton, (sound.fetcher here empty).carry rfl ?_, .drop here rfl empty⟩
          intro q wants
          have different : q ≠ label.process := by
            rintro rfl
            have inside := gives_inside here
            rw [(wants_outside wants).1] at inside
            contradiction
          rw [doV, goto_pc, Function.update_of_ne different]
          exact wants
      | inr passed =>
          obtain ⟨pcb, rest, queue, different, baton⟩ := passed
          exact ⟨_, baton, trivial, .pass here rfl queue different⟩

theorem Sound.step {label : Label π κ} (sound : monitor.Sound holder)
    (moved : monitor.step label = some after) :
    ∃ later, after.Sound later ∧ monitor.BatonStep label.process holder after later := by
  obtain ⟨later, baton, fetched, batonStep⟩ := sound.step_baton moved
  obtain ⟨next, pc, known, nextCount, xCount⟩ := step_counters moved (sound.known label.process)
  refine ⟨later, ⟨baton, fetched, ?_, ?_, ?_⟩, batonStep⟩
  · intro q
    by_cases same : q = label.process
    · subst same
      rw [pc, Function.update_self]
      exact known
    · rw [pc, Function.update_of_ne same]
      cases inside : (monitor.pc label.process).inside with
      | true =>
          have held := (sound.baton.active label.process).mp (.inl inside)
          subst held
          exact known_outside (sound.inactive same).1
      | false =>
          obtain ⟨sameNext, sameX⟩ := (step_move moved).2.quiet inside
          exact (sound.known q).congr sameNext sameX
  · have counted := tally_update monitor.pc Pc.countsNext label.process next
    have before := sound.nextCount
    rw [pc]
    cases here : (monitor.pc label.process).countsNext <;> cases there : next.countsNext <;>
      simp only [here, there, Bool.toInt_false, Bool.toInt_true, Bool.false_eq_true, if_true,
        if_false] at counted nextCount <;> omega
  · intro cond
    have counted := tally_update monitor.pc (Pc.countsX cond) label.process next
    have before := sound.xCount cond
    have change := xCount cond
    rw [pc]
    cases here : (monitor.pc label.process).countsX cond <;> cases there : next.countsX cond <;>
      simp only [here, there, Bool.toInt_false, Bool.toInt_true, Bool.false_eq_true, if_true,
        if_false] at counted change <;> omega

omit [Fintype π] in
theorem step_pc_other {label : Label π κ} (moved : monitor.step label = some after)
    (different : q ≠ label.process) : after.pc q = monitor.pc q := by
  cases (step_move moved).2 <;> simp [doP, doV, different]

theorem sound_of_reachable (reached : (machine π κ).Reachable monitor) :
    ∃ holder, monitor.Sound holder := by
  apply reached.invariant
  · rintro _ rfl
    exact ⟨_, Sound.initial⟩
  · rintro before label after ⟨holder, sound⟩ moved
    obtain ⟨later, sound, _⟩ := sound.step moved
    exact ⟨later, sound⟩

/-- Mutual exclusion, and the exact meaning of both counters, in every state
that any number of processes can reach in any interleaving. -/
theorem monitor_exclusion (reached : (machine π κ).Reachable monitor) :
    (∀ p q, monitor.Active p → monitor.Active q → p = q) ∧
      monitor.nextCount = (Finset.univ.filter fun p => (monitor.pc p).countsNext = true).card ∧
      ∀ cond, monitor.xCount cond =
        (Finset.univ.filter fun p => (monitor.pc p).countsX cond = true).card := by
  obtain ⟨holder, sound⟩ := sound_of_reachable reached
  refine ⟨?_, sound.nextCount, sound.xCount⟩
  intro p q first second
  rw [sound.baton.active] at first second
  rw [first] at second
  exact Holder.process.inj second

/-- Process 1 signals while process 0 has not yet called `P(&cond->x_sem)`. -/
def signalInWindow : List (Label (Fin 2) (Fin 1)) :=
  [⟨0, none⟩, ⟨0, some (.wait 0)⟩, ⟨0, none⟩, ⟨0, none⟩, ⟨0, none⟩,
    ⟨1, none⟩, ⟨1, some (.signal 0)⟩, ⟨1, none⟩, ⟨1, none⟩, ⟨1, none⟩]

theorem monitor_exclusion_in_window :
    ∃ monitor : Monitor (Fin 2) (Fin 1),
      (machine (Fin 2) (Fin 1)).run monitorInit signalInWindow = some monitor ∧
      (monitor.nextCount = 1 ∧ monitor.xCount 0 = 1) ∧
      (∀ p q, monitor.Active p → monitor.Active q → p = q) ∧
      monitor.nextCount = (Finset.univ.filter fun p => (monitor.pc p).countsNext = true).card ∧
      ∀ cond, monitor.xCount cond =
        (Finset.univ.filter fun p => (monitor.pc p).countsX cond = true).card := by
  refine ⟨_, rfl, ⟨rfl, rfl⟩, monitor_exclusion ?_⟩
  exact .run (.start rfl) (rfl : (machine (Fin 2) (Fin 1)).run monitorInit signalInWindow = _)

end Preservation

end Monitor

end WindOs.Sync
