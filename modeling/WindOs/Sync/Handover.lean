import WindOs.Sync.MonitorInvariant

namespace WindOs.Sync

open Data

universe u v

variable {π : Type v} {κ : Type u}

/-! # Hoare hand-over

From the `V(&cond->x_sem)` of a `signal` to the return of the `wait` it admits,
the baton is first in flight in `x_sem` and then with one process inside that
`wait`.  Both phases are closed under every step of every process.
-/

/-- Anywhere inside `wait(cond)`. -/
def Pc.inWait [DecidableEq κ] (cond : κ) : Pc κ → Bool
  | .waitCount c | .waitTest c | .waitNext c | .waitMutex c | .waitSleep c | .waiting c
  | .waitUncount c | .waitPrint c => c = cond
  | _ => false

/-- Inside `wait(cond)`, at or past the point where its `P` lets it through. -/
def Pc.resuming [DecidableEq κ] (cond : κ) : Pc κ → Bool
  | .waiting c | .waitUncount c | .waitPrint c => c = cond
  | _ => false

/-- Before the `V` of `wait` or of `leave` that admits a signaller. -/
def Pc.admitsSignaller : Pc κ → Bool
  | .waitNext _ | .leaveNext => true
  | _ => false

/-- Inside `enter`. -/
def Pc.inEnter : Pc κ → Bool
  | .enter | .entering => true
  | _ => false

namespace Monitor

variable [DecidableEq π] [DecidableEq κ] [Fintype π]
variable {monitor after : Monitor π κ} {holder : Holder π κ} {p q : π} {cond : κ}

/-- The baton lies in `cond->x_sem`. -/
def InFlight (monitor : Monitor π κ) (cond : κ) : Prop :=
  0 < (monitor.sems.sem (.xSem cond)).value

/-- The baton has reached `q`, which has not yet returned from `wait(cond)`. -/
def HandedTo (monitor : Monitor π κ) (cond : κ) (q : π) : Prop :=
  monitor.Active q ∧ (monitor.pc q).resuming cond = true

omit [DecidableEq π] in
theorem resuming_inWait {pc : Pc κ} (resuming : pc.resuming cond = true) :
    pc.inWait cond = true := by
  cases pc <;> simp_all [Pc.resuming, Pc.inWait]

omit [DecidableEq π] in
theorem Sound.in_flight_idle (sound : monitor.Sound holder) (flying : monitor.InFlight cond) :
    ¬ monitor.Active q := by
  have held := (sound.baton.positive _).mp flying
  rw [sound.baton.active, held]
  exact fun same => by cases same

omit [DecidableEq π] in
theorem Sound.active_unique (sound : monitor.Sound holder) (first : monitor.Active p)
    (second : monitor.Active q) : p = q := by
  rw [sound.baton.active] at first second
  rw [first] at second
  exact Holder.process.inj second

theorem Sound.signal_hands_over {label : Label π κ} (sound : monitor.Sound holder)
    (here : monitor.pc label.process = .signalWake cond)
    (moved : monitor.step label = some after) :
    after.InFlight cond ∨ ∃ q, after.HandedTo cond q := by
  obtain ⟨later, soundAfter, batonStep⟩ := sound.step moved
  have gives : (monitor.pc label.process).gives = some (.xSem cond) := by simp [here, Pc.gives]
  cases batonStep with
  | keep held =>
      -- The only step from here is a `V`, and it takes the baton away.
      exfalso
      have still := (soundAfter.baton.active label.process).mpr rfl
      have executed := step_execute moved (by simp [here])
      simp only [execute, here, Option.some.injEq] at executed
      subst executed
      simp [Active, doV, Pc.inside, Pc.pending] at still
  | take wants => simp [here, Pc.wants] at wants
  | block wants => simp [here, Pc.wants] at wants
  | @drop s gives' held empty =>
      rw [gives] at gives'
      cases gives'
      exact .inl ((soundAfter.baton.positive _).mpr rfl)
  | @pass s pcb rest gives' held queue different =>
      rw [gives] at gives'
      cases gives'
      refine .inr ⟨pcb, (soundAfter.baton.active pcb).mpr rfl, ?_⟩
      have pending := sound.baton.queued pcb (.xSem cond) (by simp [queue])
      rw [step_pc_other moved different]
      cases place : monitor.pc pcb <;> simp_all [Pc.pending, Pc.resuming]

theorem Sound.in_flight_step {label : Label π κ} (sound : monitor.Sound holder)
    (flying : monitor.InFlight cond) (moved : monitor.step label = some after) :
    after.InFlight cond ∨ after.HandedTo cond label.process := by
  have held := (sound.baton.positive _).mp flying
  subst held
  obtain ⟨later, soundAfter, batonStep⟩ := sound.step moved
  cases batonStep with
  | keep held => cases held
  | take wants held granted =>
      cases held
      refine .inr ⟨(soundAfter.baton.active _).mpr rfl, ?_⟩
      rw [granted]
      cases here : monitor.pc label.process <;> simp_all [Pc.wants, Pc.granted, Pc.resuming]
  | block => exact .inl ((soundAfter.baton.positive _).mpr rfl)
  | drop gives held => cases held
  | pass gives held => cases held

/-- The process that received the baton keeps it until it returns, and only it
moves inside the monitor meanwhile. -/
theorem Sound.handed_step {label : Label π κ} (sound : monitor.Sound holder)
    (handed : monitor.HandedTo cond q) (moved : monitor.step label = some after) :
    after.HandedTo cond q ∨ (label.process = q ∧ after.pc q = .body) := by
  have held := (sound.baton.active q).mp handed.1
  subst held
  by_cases same : label.process = q
  · have resuming := handed.2
    subst same
    have notBody : monitor.pc label.process ≠ .body := by
      intro here
      simp [here, Pc.resuming] at resuming
    have executed := step_execute moved notBody
    simp only [execute] at executed
    cases here : monitor.pc label.process <;>
      simp only [here, Pc.resuming, Bool.false_eq_true] at resuming
    all_goals
      simp only [here, Option.some.injEq] at executed
      subst executed
    case waiting | waitUncount =>
      exact .inl ⟨.inl (by simp [Pc.inside]), by simpa [Pc.resuming] using resuming⟩
    case waitPrint => exact .inr ⟨rfl, by simp⟩
  · obtain ⟨later, soundAfter, batonStep⟩ := sound.step moved
    cases batonStep with
    | keep held => exact absurd (Holder.process.inj held).symm same
    | take wants held => cases held
    | block =>
        refine .inl ⟨(soundAfter.baton.active q).mpr rfl, ?_⟩
        rw [step_pc_other moved (Ne.symm same)]
        exact handed.2
    | drop gives held => exact absurd (Holder.process.inj held).symm same
    | pass gives held => exact absurd (Holder.process.inj held).symm same

/-- Called `P(&monitor->next)` or about to, and not let through. -/
structure SignallerOut (monitor : Monitor π κ) (p : π) : Prop where
  place : (monitor.pc p).wants = some .next ∨ (monitor.pc p).pending = some .next
  outside : ¬ monitor.Active p
  empty : ¬ 0 < (monitor.sems.sem .next).value

theorem Sound.signaller_step {label : Label π κ} (sound : monitor.Sound holder)
    (out : monitor.SignallerOut p) (moved : monitor.step label = some after)
    (notAdmitted : (monitor.pc label.process).admitsSignaller = false) : after.SignallerOut p := by
  obtain ⟨later, soundAfter, batonStep⟩ := sound.step moved
  have notHeld : holder ≠ .process p := fun held => out.outside ((sound.baton.active p).mpr held)
  have notNext : holder ≠ .semaphore .next := fun held =>
    out.empty ((sound.baton.positive _).mpr held)
  have givesOther : (monitor.pc label.process).gives ≠ some .next := by
    intro gives
    cases here : monitor.pc label.process <;> simp_all [Pc.gives, Pc.admitsSignaller]
  have wantsNext : ∀ s, (monitor.pc p).wants = some s → s = .next := by
    intro s wants
    cases out.place with
    | inl next => exact Option.some.inj (wants.symm.trans next)
    | inr pending => simp [(wants_outside wants).2] at pending
  have result : (label.process = p → (after.pc p).pending = some .next) →
      later ≠ .process p → later ≠ .semaphore .next → after.SignallerOut p := by
    intro own notProcess notSemaphore
    refine ⟨?_, ?_, ?_⟩
    · by_cases same : label.process = p
      · exact .inr (own same)
      · rw [step_pc_other moved (Ne.symm same)]
        exact out.place
    · rw [soundAfter.baton.active]
      exact notProcess
    · rw [soundAfter.baton.positive]
      exact notSemaphore
  cases batonStep with
  | keep held =>
      have different : label.process ≠ p := fun same => notHeld (same ▸ held)
      exact result (fun same => absurd same different)
        (fun same => different (Holder.process.inj same)) (fun same => by cases same)
  | take wants held =>
      have different : label.process ≠ p := by
        rintro rfl
        exact notNext (wantsNext _ wants ▸ held)
      exact result (fun same => absurd same different)
        (fun same => different (Holder.process.inj same)) (fun same => by cases same)
  | block wants elsewhere pending =>
      refine result ?_ notHeld notNext
      rintro rfl
      rw [pending, wantsNext _ wants]
  | drop gives held =>
      have different : label.process ≠ p := fun same => notHeld (same ▸ held)
      refine result (fun same => absurd same different) (fun same => by cases same) ?_
      intro same
      exact givesOther (by rw [gives, Holder.semaphore.inj same])
  | @pass s pcb rest gives held queue =>
      have different : label.process ≠ p := fun same => notHeld (same ▸ held)
      refine result (fun same => absurd same different) ?_ (fun same => by cases same)
      intro same
      have woken : pcb = p := Holder.process.inj same
      have pending := sound.baton.queued pcb s (by simp [queue])
      rw [woken] at pending
      cases out.place with
      | inl wants => simp [(wants_outside wants).2] at pending
      | inr next => exact givesOther (gives.trans (pending.symm.trans next))

/-- Nobody gets in through `enter` while a signaller waits. -/
theorem Sound.enter_step {label : Label π κ} (sound : monitor.Sound holder)
    (moved : monitor.step label = some after) (entering : (monitor.pc p).inEnter = true)
    (outside : ¬ monitor.Active p) (admitted : after.Active p) : monitor.nextCount = 0 := by
  obtain ⟨later, soundAfter, batonStep⟩ := sound.step moved
  have nonneg : 0 ≤ monitor.nextCount := by
    rw [sound.nextCount]
    omega
  have now := (soundAfter.baton.active p).mp admitted
  have notHeld : holder ≠ .process p := fun held => outside ((sound.baton.active p).mpr held)
  cases batonStep with
  | keep held =>
      cases now
      exact absurd held notHeld
  | take wants held =>
      cases now
      have mutex : holder = .semaphore .mutex := by
        cases here : monitor.pc label.process <;> simp_all [Pc.wants, Pc.inEnter]
      subst mutex
      have fetched : monitor.nextCount ≤ 0 := sound.fetched
      omega
  | block => exact absurd now notHeld
  | drop gives => cases now
  | @pass s pcb rest gives held queue =>
      cases now
      have pending := sound.baton.queued p s (by simp [queue])
      have mutex : s = .mutex := by
        cases here : monitor.pc p <;> simp_all [Pc.pending, Pc.inEnter]
      subst mutex
      have known := sound.known label.process
      have none : monitor.nextCount ≤ 0 := by
        cases here : monitor.pc label.process <;> simp_all [Pc.gives, Known]
      omega

section Runs

variable {trace : (machine π κ).Trace} {i j : Nat}

omit [DecidableEq π] [DecidableEq κ] [Fintype π] in
theorem upto_succ {property : Nat → Prop} (before : ∀ k, i < k → k ≤ j → property k)
    (last : property (j + 1)) : ∀ k, i < k → k ≤ j + 1 → property k := by
  intro k above below
  cases Nat.lt_or_eq_of_le below with
  | inl earlier => exact before k above (Nat.le_of_lt_succ earlier)
  | inr now => exact now ▸ last

/-- How far a hand-over that began at position `i` has come at position `j`:
still in flight, with the process `q` since position `f`, or completed by the
return of `q` at position `e`. -/
inductive Progress (trace : (machine π κ).Trace) (cond : κ) (i j : Nat) : Prop where
  | inFlight (flying : ∀ k, i < k → k ≤ j → (trace.state k).InFlight cond)
  | handed (f : Nat) (q : π) (begun : i < f) (reached : f ≤ j)
      (flying : ∀ k, i < k → k < f → (trace.state k).InFlight cond)
      (handed : ∀ k, f ≤ k → k ≤ j → (trace.state k).HandedTo cond q)
  | returned (f e : Nat) (q : π) (begun : i < f) (reached : f ≤ e) (left : e < j)
      (flying : ∀ k, i < k → k < f → (trace.state k).InFlight cond)
      (handed : ∀ k, f ≤ k → k ≤ e → (trace.state k).HandedTo cond q)
      (outside : (trace.state (e + 1)).pc q = .body)

theorem Progress.step (progress : Progress trace cond i j) (begun : i < j)
    (inside : j < trace.length) : Progress trace cond i (j + 1) := by
  obtain ⟨holder, sound⟩ := sound_of_reachable (trace.reachable (Nat.le_of_lt inside))
  have moved := trace.step j inside
  cases progress with
  | inFlight flying =>
      cases sound.in_flight_step (flying j begun (Nat.le_refl j)) moved with
      | inl still => exact .inFlight (upto_succ flying still)
      | inr handed =>
          refine .handed (j + 1) (trace.label j).process (by omega) (Nat.le_refl _) ?_ ?_
          · intro k above below
            exact flying k above (by omega)
          · intro k above below
            have now : k = j + 1 := by omega
            exact now ▸ handed
  | handed f q first reached flying handed =>
      cases sound.handed_step (handed j reached (Nat.le_refl j)) moved with
      | inl still =>
          refine .handed f q first (by omega) flying ?_
          intro k above below
          cases Nat.lt_or_eq_of_le below with
          | inl earlier => exact handed k above (Nat.le_of_lt_succ earlier)
          | inr now => exact now ▸ still
      | inr returned => exact .returned f j q first reached (by omega) flying handed returned.2
  | returned f e q first reached left flying handed outside =>
      exact .returned f e q first reached (by omega) flying handed outside

theorem progress_of_signal (inside : i < trace.length)
    (wakes : (trace.state i).pc (trace.label i).process = .signalWake cond)
    (later : i < j) (within : j ≤ trace.length) : Progress trace cond i j := by
  induction j, later using Nat.le_induction with
  | base =>
      obtain ⟨holder, sound⟩ := sound_of_reachable (trace.reachable (Nat.le_of_lt inside))
      have only : ∀ k, i < k → k ≤ i + 1 → k = i + 1 := by
        intro k above below
        omega
      cases sound.signal_hands_over wakes (trace.step i inside) with
      | inl flying =>
          apply Progress.inFlight
          intro k above below
          exact only k above below ▸ flying
      | inr received =>
          obtain ⟨q, handed⟩ := received
          refine .handed (i + 1) q (by omega) (Nat.le_refl _) ?_ ?_
          · intro k above below
            omega
          · intro k above below
            exact only k (by omega) below ▸ handed
  | succ j later ih => exact (ih (by omega)).step later (by omega)

theorem signaller_waits (inside : i < trace.length)
    (wakes : (trace.state i).pc (trace.label i).process = .signalWake cond)
    (later : i < j) (within : j ≤ trace.length) :
    (∃ m, i < m ∧ m < j ∧
      ((trace.state m).pc (trace.label m).process).admitsSignaller = true) ∨
    (trace.state j).SignallerOut (trace.label i).process := by
  induction j, later using Nat.le_induction with
  | base =>
      obtain ⟨holder, sound⟩ := sound_of_reachable (trace.reachable (Nat.le_of_lt inside))
      have executed := step_execute (trace.step i inside) (by simp [wakes])
      simp only [execute, wakes, Option.some.injEq] at executed
      refine .inr ⟨.inl ?_, ?_, ?_⟩
      · simp [← executed, doV, Pc.wants]
      · simp [← executed, Active, doV, Pc.inside, Pc.pending]
      · have active : (trace.state i).Active (trace.label i).process :=
          .inl (by simp [wakes, Pc.inside])
        have held := (sound.baton.active _).mp active
        have untouched : ((trace.state (i + 1)).sems.sem .next).value =
            ((trace.state i).sems.sem .next).value := by
          simp [← executed, doV, Sems.V_value]
        rw [untouched, sound.baton.positive, held]
        exact fun same => by cases same
  | succ j later ih =>
      cases ih (by omega) with
      | inl admitted =>
          obtain ⟨m, above, below, admits⟩ := admitted
          exact .inl ⟨m, above, by omega, admits⟩
      | inr out =>
          cases admits : ((trace.state j).pc (trace.label j).process).admitsSignaller with
          | true => exact .inl ⟨j, later, by omega, admits⟩
          | false =>
              obtain ⟨holder, sound⟩ := sound_of_reachable (trace.reachable (show j ≤ trace.length by omega))
              exact .inr (sound.signaller_step out (trace.step j (by omega)) admits)

/-- The first process to become active is the one that the baton was handed to. -/
theorem first_receiver {f : Nat} {receiver : π} (begun : i < f)
    (flying : ∀ k, i < k → k < f → (trace.state k).InFlight cond)
    (handed : (trace.state f).HandedTo cond receiver)
    (later : i < j) (within : j ≤ trace.length) (active : (trace.state j).Active q)
    (first : ∀ k, i < k → k < j → ∀ r, ¬ (trace.state k).Active r) : f = j ∧ receiver = q := by
  obtain ⟨holder, sound⟩ := sound_of_reachable (trace.reachable within)
  have notEarlier : ¬ f < j := fun earlier => first f begun earlier receiver handed.1
  have notLater : ¬ j < f := fun behind => sound.in_flight_idle (flying j later behind) active
  have same : f = j := by omega
  subst same
  exact ⟨rfl, sound.active_unique handed.1 active⟩

/-- Hoare hand-over.  After the `V(&cond->x_sem)` that `p` executes at position
`i`, the first process `q` to become active is inside `wait(cond)`; until `q` has
returned from it nobody else moves inside the monitor; `p` is active again only
after a `V(&monitor->next)` by `wait` or `leave`.  And whoever is let in through
`enter` finds no signaller waiting. -/
theorem hoare_hand_over (trace : (machine π κ).Trace) :
    (∀ i p cond, i < trace.length → (trace.label i).process = p →
      (trace.state i).pc p = .signalWake cond →
      (∀ j q, i < j → j ≤ trace.length → (trace.state j).Active q →
        (∀ k, i < k → k < j → ∀ r, ¬ (trace.state k).Active r) →
        ((trace.state j).pc q).inWait cond = true ∧
        ∀ k, i < k → k < trace.length →
          (∀ m, j ≤ m → m ≤ k → ((trace.state m).pc q).inWait cond = true) →
          (trace.state k).Active (trace.label k).process → (trace.label k).process = q) ∧
      (∀ k, i < k → k ≤ trace.length → (trace.state k).Active p →
        ∃ m, i < m ∧ m < k ∧
          ((trace.state m).pc (trace.label m).process).admitsSignaller = true)) ∧
    (∀ m r, m < trace.length → ((trace.state m).pc r).inEnter = true →
      ¬ (trace.state m).Active r → (trace.state (m + 1)).Active r →
      (trace.state m).nextCount = 0) := by
  refine ⟨?_, ?_⟩
  · intro i p cond inside process wakes
    subst process
    refine ⟨?_, ?_⟩
    · intro j q later within active first
      refine ⟨?_, ?_⟩
      · obtain ⟨holder, sound⟩ := sound_of_reachable (trace.reachable within)
        cases progress_of_signal inside wakes later within with
        | inFlight flying =>
            exact absurd active (sound.in_flight_idle (flying j later (Nat.le_refl j)))
        | handed f receiver begun reached flying handed =>
            have received := handed f (Nat.le_refl f) reached
            obtain ⟨rfl, rfl⟩ := first_receiver begun flying received later within
              active first
            exact resuming_inWait received.2
        | returned f e receiver begun reached left flying handed =>
            have received := handed f (Nat.le_refl f) reached
            exact absurd received.1 (first f begun (by omega) receiver)
      · intro k after bound still moves
        obtain ⟨holder, sound⟩ := sound_of_reachable (trace.reachable (Nat.le_of_lt bound))
        cases progress_of_signal inside wakes after (Nat.le_of_lt bound) with
        | inFlight flying =>
            exact absurd moves (sound.in_flight_idle (flying k after (Nat.le_refl k)))
        | handed f receiver begun reached flying handed =>
            obtain ⟨rfl, rfl⟩ := first_receiver begun flying
              (handed f (Nat.le_refl f) reached) later within active first
            exact sound.active_unique moves (handed k reached (Nat.le_refl k)).1
        | returned f e receiver begun reached left flying handed outside =>
            obtain ⟨rfl, rfl⟩ := first_receiver begun flying
              (handed f (Nat.le_refl f) reached) later within active first
            have inside := still (e + 1) (by omega) (by omega)
            simp [outside, Pc.inWait] at inside
    · intro k later within active
      cases signaller_waits inside wakes later within with
      | inl admitted => exact admitted
      | inr out => exact absurd active out.outside
  · intro m r inside entering outside admitted
    obtain ⟨holder, sound⟩ := sound_of_reachable (trace.reachable (Nat.le_of_lt inside))
    exact sound.enter_step (trace.step m inside) entering outside admitted

/-- The signaller of `signalInWindow` goes to sleep, the waiter passes its `P`
and leaves, and its `V(&monitor->next)` admits the signaller again. -/
def signalAndLeave : List (Label (Fin 2) (Fin 1)) :=
  signalInWindow ++ [⟨1, none⟩, ⟨0, none⟩, ⟨0, none⟩, ⟨0, none⟩, ⟨0, some .leave⟩,
    ⟨0, none⟩, ⟨0, none⟩, ⟨1, none⟩]

def signalAndLeaveTrace : (machine (Fin 2) (Fin 1)).Trace :=
  .ofLabels _ monitorInit rfl ⟨0, none⟩ signalAndLeave rfl

theorem hoare_hand_over_in_window :
    (signalAndLeaveTrace.state 9).pc 1 = .signalWake 0 ∧
      (signalAndLeaveTrace.state 12).Active 0 ∧
      ((signalAndLeaveTrace.state 12).pc 0).inWait 0 = true ∧
      (signalAndLeaveTrace.state 18).Active 1 ∧
      ∃ m, 9 < m ∧ m < 18 ∧
        ((signalAndLeaveTrace.state m).pc (signalAndLeaveTrace.label m).process).admitsSignaller =
          true := by
  have wakes : (signalAndLeaveTrace.state 9).pc 1 = .signalWake 0 := rfl
  have active : (signalAndLeaveTrace.state 12).Active 0 := .inl rfl
  have again : (signalAndLeaveTrace.state 18).Active 1 := .inl rfl
  have first : ∀ k, 9 < k → k < 12 → ∀ r, ¬ (signalAndLeaveTrace.state k).Active r := by
    intro k lower upper
    have two : k = 10 ∨ k = 11 := by omega
    obtain rfl | rfl := two
    · unfold Active
      decide
    · unfold Active
      decide
  obtain ⟨receives, readmitted⟩ :=
    (hoare_hand_over signalAndLeaveTrace).1 9 1 0 (by decide) rfl wakes
  exact ⟨wakes, active, (receives 12 0 (by decide) (by decide) active first).1, again,
    readmitted 18 (by decide) (by decide) again⟩

end Runs

end Monitor

end WindOs.Sync
