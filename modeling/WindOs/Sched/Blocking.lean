import WindOs.Sched.Kernel

namespace WindOs.Sched

open Data Sync

universe u v

/-! # Who is blocked, since when, and who wakes it

Over a whole run: the counters count the calls, the queues are exactly the
sleepers in the order in which they went to sleep, and only a `V` on its own
semaphore brings a sleeper back.
-/

namespace Kernel

variable {σ : Type u} {π : Type v} [DecidableEq σ] [DecidableEq π]
variable {kernel after : Kernel σ π} {sems : Sems σ π} {procs : List π} {s : σ} {p : π} {op : Op σ}

/-- What holds in every reachable state. -/
structure Sound (kernel : Kernel σ π) (sems : Sems σ π) (procs : List π) : Prop where
  represents : kernel.Represents sems procs
  consistent : sems.Consistent
  all : ∀ p, p ∈ procs
  awake : ∀ p, kernel.current = some (.pcb p) → kernel.state p ≠ .taskSleeping

/-- What one step does to the semaphores and to `current`. -/
inductive Change (kernel : Kernel σ π) (sems : Sems σ π) (after : Kernel σ π) :
    Op σ → Sems σ π → Prop where
  | pass {s : σ} {p : π} (running : kernel.current = some (.pcb p))
      (positive : 0 < kernel.value s) (same : after.current = kernel.current) :
      Change kernel sems after (.P s) (sems.P s p)
  | block {s : σ} {p : π} (running : kernel.current = some (.pcb p))
      (exhausted : kernel.value s ≤ 0) (switched : after.Switched) :
      Change kernel sems after (.P s) (sems.P s p)
  | V {s : σ} (same : after.current = kernel.current) : Change kernel sems after (.V s) (sems.V s)
  | timer (switched : kernel.current = none ∧ after.current = none ∨ after.Switched) :
      Change kernel sems after .timer sems

section Steps

variable [Fintype π]

omit [DecidableEq σ] [DecidableEq π] in
theorem Sound.enough (sound : kernel.Sound sems procs) : procs.length < Fintype.card π + 1 := by
  have nodup : procs.Nodup :=
    ((List.nodup_cons.mp sound.represents.procList.nodup).2).of_map _
  exact Nat.lt_succ_of_le nodup.length_le_card

theorem Sound.enabled_P (sound : kernel.Sound sems procs) (running : kernel.current = some (.pcb p)) :
    ∃ after, kernel.P (Fintype.card π + 1) s = some after := by
  have awake := sound.awake p running
  rw [sound.represents.state] at awake
  obtain ⟨after, called, _⟩ :=
    P_refines sound.represents sound.consistent.orderly (sound.all p) sound.enough running awake
  exact ⟨after, called⟩

theorem Sound.step (sound : kernel.Sound sems procs)
    (moved : (machine σ π).step kernel op = some after) :
    ∃ later, after.Sound later procs ∧ Change kernel sems after op later := by
  cases op with
  | P s =>
      cases running : kernel.current with
      | none => simp [machine, Kernel.step, Kernel.P, running] at moved
      | some task =>
          cases task with
          | idle => simp [machine, Kernel.step, Kernel.P, running] at moved
          | pcb p =>
              have awake := sound.awake p running
              rw [sound.represents.state] at awake
              obtain ⟨result, called, represents, switch, _⟩ :=
                @P_refines _ _ _ _ _ _ _ _ s _ sound.represents sound.consistent.orderly
                  (sound.all p) sound.enough running awake
              have same : result = after := Option.some.inj (called.symm.trans moved)
              subst same
              have consistent := sound.consistent.P (s := s) awake
              by_cases positive : 0 < kernel.value s
              · rw [if_pos positive] at switch
                refine ⟨_, ⟨represents, consistent, sound.all, ?_⟩, .pass running positive switch⟩
                intro q now
                rw [switch, running] at now
                cases now
                have value := sound.represents.value s
                rw [represents.state, Sems.P_pass (by omega)]
                exact awake
              · rw [if_neg positive] at switch
                exact ⟨_, ⟨represents, consistent, sound.all, fun q => switch.awake⟩,
                  .block running (by omega) switch⟩
  | V s =>
      obtain ⟨result, called, represents, current⟩ :=
        @V_refines _ _ _ _ _ _ _ s sound.represents sound.consistent.orderly
      have same : result = after := Option.some.inj (called.symm.trans moved)
      subst same
      refine ⟨_, ⟨represents, sound.consistent.V, sound.all, ?_⟩, .V current⟩
      intro p running
      have awake := sound.awake p (current ▸ running)
      rw [sound.represents.state] at awake
      have absent : ∀ t, p ∉ ((sems.V s).sem t).queue := by
        intro t member
        exact sound.consistent.not_queued awake (Sems.V_queue_sublist.subset member)
      rw [represents.state]
      intro asleep
      obtain ⟨t, member⟩ := (sound.consistent.V.sleeping p).mp asleep
      exact absent t member
  | timer =>
      obtain ⟨current, called, switch, _⟩ :=
        @schedule_spec _ _ _ kernel _ _ sound.represents.procList (fun _ _ p _ => sound.all p)
          sound.enough
      have same := Option.some.inj (called.symm.trans moved)
      subst same
      have represents := sound.represents
      refine ⟨sems, ⟨⟨represents.value, represents.state, represents.queue, represents.procList⟩,
        sound.consistent, sound.all, ?_⟩, .timer switch⟩
      intro p running
      obtain ⟨_, nobody⟩ | switched := switch
      · rw [nobody] at running
        contradiction
      · exact switched.awake running

end Steps

section Histories

variable [Fintype π] {trace : (machine σ π).Trace} {since other i j : Nat} {q : π}

/-- How often `op` was called in the first `i` steps. -/
def calls (trace : (machine σ π).Trace) (op : Op σ) (i : Nat) : Nat :=
  (List.range i).countP fun k => trace.label k = op

/-- At position `i` the process `p` is still asleep in the `P(s)` that it called at
position `since`. -/
structure BlockedSince (trace : (machine σ π).Trace) (s : σ) (p : π) (since i : Nat) : Prop where
  earlier : since < i
  called : trace.label since = .P s
  caller : (trace.state since).current = some (.pcb p)
  asleep : ∀ k, since < k → k ≤ i → (trace.state k).state p = .taskSleeping

/-- The queues hold the sleepers in the order of the calls they are blocked in. -/
structure History (trace : (machine σ π).Trace) (i : Nat) (sems : Sems σ π) (since : π → Nat) :
    Prop where
  value : ∀ s, (sems.sem s).value =
    (trace.state 0).value s + calls trace (.V s) i - calls trace (.P s) i
  blocked : ∀ s p, p ∈ (sems.sem s).queue → BlockedSince trace s p (since p) i
  order : ∀ s, (sems.sem s).queue.Pairwise fun p q => since p < since q

theorem calls_succ : calls trace op (i + 1) =
    calls trace op i + if trace.label i = op then 1 else 0 := by
  simp [calls, List.range_succ, List.countP_append, List.countP_cons]

theorem BlockedSince.extend (blocked : BlockedSince trace s p since i)
    (asleep : (trace.state (i + 1)).state p = .taskSleeping) :
    BlockedSince trace s p since (i + 1) := by
  refine ⟨Nat.lt_succ_of_lt blocked.earlier, blocked.called, blocked.caller, ?_⟩
  intro k later within
  by_cases last : k = i + 1
  · rw [last]
    exact asleep
  · exact blocked.asleep k later (by omega)

theorem calls_value {later : Sems σ π} (value : ∀ s, (sems.sem s).value =
      (trace.state 0).value s + calls trace (.V s) i - calls trace (.P s) i)
    (change : Change kernel sems after (trace.label i) later) :
    ∀ s, (later.sem s).value =
      (trace.state 0).value s + calls trace (.V s) (i + 1) - calls trace (.P s) (i + 1) := by
  intro s
  have before := value s
  rw [calls_succ, calls_succ]
  generalize trace.label i = op at change
  cases change with
  | @pass t p =>
      rw [Sems.P_value, before]
      obtain rfl | different := eq_or_ne s t
      · simp only [reduceCtorEq, if_true, if_false]
        omega
      · simp [different, Ne.symm different]
  | @block t p =>
      rw [Sems.P_value, before]
      obtain rfl | different := eq_or_ne s t
      · simp only [reduceCtorEq, if_true, if_false]
        omega
      · simp [different, Ne.symm different]
  | @V t =>
      rw [Sems.V_value, before]
      obtain rfl | different := eq_or_ne s t
      · simp only [reduceCtorEq, if_true, if_false]
        omega
      · simp [different, Ne.symm different]
  | timer => simpa using before

omit [Fintype π] in
/-- What a step leaves on a queue was on it before, unless the step put it there. -/
theorem Change.queue {later : Sems σ π} (change : Change kernel sems after op later)
    (represents : kernel.Represents sems procs) (t : σ) :
    (later.sem t).queue.Sublist (sems.sem t).queue ∨
      ∃ p, op = .P t ∧ kernel.current = some (.pcb p) ∧
        (later.sem t).queue = (sems.sem t).queue ++ [p] := by
  cases change with
  | @pass s p running positive =>
      rw [represents.value] at positive
      rw [Sems.P_pass positive]
      by_cases same : t = s
      · subst same; simp
      · simp [same]
  | @block s p running exhausted =>
      rw [represents.value] at exhausted
      rw [Sems.P_block exhausted]
      by_cases same : t = s
      · subst same
        exact .inr ⟨p, rfl, running, by simp⟩
      · simp [same]
  | @V s => exact .inl Sems.V_queue_sublist
  | timer => exact .inl (List.Sublist.refl _)

/-- One more step of a run. -/
theorem History.step {later : Sems σ π} {since : π → Nat} (history : History trace i sems since)
    (sound : (trace.state i).Sound sems procs) (soundAfter : (trace.state (i + 1)).Sound later procs)
    (change : Change (trace.state i) sems (trace.state (i + 1)) (trace.label i) later) :
    ∃ since, History trace (i + 1) later since := by
  have asleep : ∀ t q, q ∈ (later.sem t).queue →
      (trace.state (i + 1)).state q = .taskSleeping := by
    intro t q member
    rw [soundAfter.represents.state]
    exact (soundAfter.consistent.sleeping q).mpr ⟨t, member⟩
  have value := calls_value history.value change
  by_cases joined : ∃ t p, trace.label i = .P t ∧ (trace.state i).current = some (.pcb p) ∧
      (later.sem t).queue = (sems.sem t).queue ++ [p]
  · -- The caller is the last to have gone to sleep anywhere.
    obtain ⟨t, p, label, running, queue⟩ := joined
    have awake := sound.awake p running
    rw [sound.represents.state] at awake
    have absent : ∀ t q, q ∈ (sems.sem t).queue → q ≠ p := by
      rintro t q member rfl
      exact sound.consistent.not_queued awake member
    have others : ∀ other, other ≠ t → (later.sem other).queue.Sublist (sems.sem other).queue := by
      intro other different
      obtain sublist | ⟨q, called, _⟩ := change.queue sound.represents other
      · exact sublist
      · rw [label] at called
        cases called
        exact absurd rfl different
    refine ⟨Function.update since p i, value, ?_, ?_⟩
    · intro other q member
      by_cases same : q = p
      · subst same
        have place : other = t := soundAfter.consistent.unique q other t member (by simp [queue])
        subst place
        rw [Function.update_self]
        refine ⟨Nat.lt_succ_self i, label, running, ?_⟩
        intro k later within
        rw [show k = i + 1 by omega]
        exact asleep other q member
      · have old : q ∈ (sems.sem other).queue := by
          by_cases place : other = t
          · subst place
            simpa [queue, same] using member
          · exact (others other place).subset member
        rw [Function.update_of_ne same]
        exact (history.blocked other q old).extend (asleep other q member)
    · intro other
      have old : (sems.sem other).queue.Pairwise fun a b =>
          Function.update since p i a < Function.update since p i b := by
        apply (history.order other).imp_of_mem
        intro a b first second earlier
        rwa [Function.update_of_ne (absent other a first),
          Function.update_of_ne (absent other b second)]
      by_cases place : other = t
      · subst place
        rw [queue, List.pairwise_append]
        refine ⟨old, by simp, ?_⟩
        intro a first b last
        rw [List.mem_singleton.mp last, Function.update_self,
          Function.update_of_ne (absent other a first)]
        exact (history.blocked other a first).earlier
      · exact old.sublist (others other place)
  · have smaller : ∀ t, (later.sem t).queue.Sublist (sems.sem t).queue := by
      intro t
      obtain sublist | ⟨p, called, running, queue⟩ := change.queue sound.represents t
      · exact sublist
      · exact absurd ⟨t, p, called, running, queue⟩ joined
    refine ⟨since, value, ?_, ?_⟩
    · intro t q member
      exact (history.blocked t q ((smaller t).subset member)).extend (asleep t q member)
    · intro t
      exact (history.order t).sublist (smaller t)

omit [DecidableEq σ] [DecidableEq π] [Fintype π] in
theorem Initial.sound (initial : kernel.Initial) : ∃ procs, kernel.Sound
    { sem := fun s => semaphoreInit (kernel.value s), state := kernel.state } procs := by
  obtain ⟨procs, all, ring⟩ := initial.procList
  refine ⟨procs, ⟨fun _ => rfl, rfl, initial.empty, ring⟩, ?_, all, fun p _ => initial.awake p⟩
  exact Sems.Initial.consistent ⟨fun _ => rfl, initial.nonneg, initial.awake⟩

theorem history_of_trace (trace : (machine σ π).Trace) {i : Nat} (inside : i ≤ trace.length) :
    ∃ sems procs since, (trace.state i).Sound sems procs ∧ History trace i sems since := by
  apply @Machine.Trace.invariant _ _ _ (fun i state =>
    ∃ sems procs since, state.Sound sems procs ∧ History trace i sems since) trace ?_ ?_ _ inside
  · obtain ⟨procs, sound⟩ := Initial.sound trace.start
    refine ⟨_, procs, fun _ => 0, sound, ?_, ?_, ?_⟩
    · intro s
      simp [semaphoreInit, calls]
    · intro s p member
      simp [semaphoreInit] at member
    · intro s
      simp [semaphoreInit]
  · rintro i within ⟨sems, procs, since, sound, history⟩
    obtain ⟨later, soundAfter, change⟩ := sound.step (trace.step i within)
    obtain ⟨since, historyAfter⟩ := history.step sound soundAfter change
    exact ⟨later, procs, since, soundAfter, historyAfter⟩

theorem awake_of_running (within : i ≤ trace.length)
    (running : (trace.state i).current = some (.pcb p)) :
    (trace.state i).state p ≠ .taskSleeping := by
  obtain ⟨sems, procs, since, sound, _⟩ := history_of_trace trace within
  exact sound.awake p running

/-- A process is blocked in one call only. -/
theorem BlockedSince.unique {t : σ} (blocked : BlockedSince trace s p since i)
    (again : BlockedSince trace t p other i) (within : i ≤ trace.length) :
    since = other ∧ s = t := by
  have notEarlier : ¬ since < other := fun earlier =>
    awake_of_running (Nat.le_trans (Nat.le_of_lt again.earlier) within) again.caller
      (blocked.asleep other earlier (Nat.le_of_lt again.earlier))
  have notLater : ¬ other < since := fun later =>
    awake_of_running (Nat.le_trans (Nat.le_of_lt blocked.earlier) within) blocked.caller
      (again.asleep since later (Nat.le_of_lt blocked.earlier))
  have same : since = other := by omega
  subst same
  have called := blocked.called
  rw [again.called] at called
  cases called
  exact ⟨rfl, rfl⟩

theorem BlockedSince.queued {blockedAt : π → Nat} (blocked : BlockedSince trace s p since i)
    (within : i ≤ trace.length) (sound : (trace.state i).Sound sems procs)
    (history : History trace i sems blockedAt) :
    p ∈ (sems.sem s).queue ∧ since = blockedAt p := by
  have asleep := blocked.asleep i blocked.earlier (Nat.le_refl i)
  rw [sound.represents.state] at asleep
  obtain ⟨t, member⟩ := (sound.consistent.sleeping p).mp asleep
  obtain ⟨same, place⟩ := blocked.unique (history.blocked t p member) within
  subst place
  exact ⟨member, same⟩

/-- The process at the front of a queue has been blocked on the semaphore longest. -/
theorem front_longest {blockedAt : π → Nat} {rest : List π} (within : i ≤ trace.length)
    (sound : (trace.state i).Sound sems procs) (history : History trace i sems blockedAt)
    (queue : (sems.sem s).queue = p :: rest) :
    ∃ since, BlockedSince trace s p since i ∧
      ∀ q other, BlockedSince trace s q other i → q = p ∨ since < other := by
  refine ⟨blockedAt p, history.blocked s p (by simp [queue]), ?_⟩
  intro q other blocked
  obtain ⟨member, rfl⟩ := blocked.queued within sound history
  have order := history.order s
  rw [queue] at member order
  obtain rfl | behind := List.mem_cons.mp member
  · exact .inl rfl
  · exact .inr ((List.pairwise_cons.mp order).1 q behind)

omit [Fintype π] in
/-- Only a `V` on the semaphore whose queue it leads wakes a sleeper. -/
theorem Change.wakes {later : Sems σ π} (change : Change kernel sems after op later)
    (sound : kernel.Sound sems procs) (soundAfter : after.Sound later procs)
    (asleep : kernel.state p = .taskSleeping) (woken : after.state p ≠ .taskSleeping) :
    ∃ s, op = .V s ∧ kernel.queues.next (.queue s) = .testNode p ∧
      after.state p = .taskRunnable := by
  rw [soundAfter.represents.state] at woken ⊢
  rw [sound.represents.state] at asleep
  cases change with
  | @pass s q running positive =>
      rw [sound.represents.value] at positive
      rw [Sems.P_pass positive] at woken
      exact absurd asleep woken
  | @block s q running exhausted =>
      rw [sound.represents.value] at exhausted
      rw [Sems.P_block exhausted] at woken
      by_cases same : p = q
      · simp [same] at woken
      · simp [same, asleep] at woken
  | @V s =>
      by_cases nonneg : 0 ≤ (sems.sem s).value
      · rw [Sems.V_free nonneg] at woken
        exact absurd asleep woken
      · have negative : (sems.sem s).value < 0 := by omega
        obtain ⟨pcb, rest, queue⟩ := sound.consistent.queue_eq_cons negative
        rw [Sems.V_wake negative queue] at woken ⊢
        by_cases same : p = pcb
        · subst same
          refine ⟨s, rfl, ?_, by simp⟩
          rw [(sound.represents.queue s).next_head, queue]
          rfl
        · simp [same, asleep] at woken
  | timer => exact absurd asleep woken

/-- A blocked process stays blocked, or a `V` on its semaphore took it off the queue. -/
theorem BlockedSince.blocked_or_woken (blocked : BlockedSince trace s p since i) (later : i ≤ j)
    (within : j ≤ trace.length) :
    BlockedSince trace s p since j ∨
      ∃ m, since < m ∧ m < j ∧ trace.label m = .V s ∧
        (trace.state m).queues.next (.queue s) = .testNode p ∧
        (trace.state (m + 1)).state p = .taskRunnable := by
  induction j, later using Nat.le_induction with
  | base => exact .inl blocked
  | succ j later ih =>
      cases ih (by omega) with
      | inr woken =>
          obtain ⟨m, after, before, rest⟩ := woken
          exact .inr ⟨m, after, by omega, rest⟩
      | inl still =>
          by_cases asleep : (trace.state (j + 1)).state p = .taskSleeping
          · exact .inl (still.extend asleep)
          · obtain ⟨sems, procs, blockedAt, sound, history⟩ :=
              history_of_trace trace (show j ≤ trace.length by omega)
            obtain ⟨_, soundAfter, change⟩ := sound.step (trace.step j (by omega))
            obtain ⟨t, label, first, runnable⟩ :=
              change.wakes sound soundAfter (still.asleep j still.earlier (Nat.le_refl j)) asleep
            obtain ⟨member, _⟩ := still.queued (by omega) sound history
            have leads : p ∈ (sems.sem t).queue := by
              have head := (sound.represents.queue t).next_head
              cases queue : (sems.sem t).queue with
              | nil => simp [first, queue] at head
              | cons q rest => simp_all
            have place := sound.consistent.unique p s t member leads
            subst place
            exact .inr ⟨j, still.earlier, Nat.lt_succ_self j, label, first, runnable⟩

/-- Counters, queues and process states over every run of any number of processes
and semaphores, and what they mean for `V`, for `P` and for `schedule`. -/
theorem semaphores_over_runs (trace : (machine σ π).Trace) {i : Nat} (inside : i ≤ trace.length) :
    (∀ s, (trace.state i).value s =
      (trace.state 0).value s + calls trace (.V s) i - calls trace (.P s) i) ∧
    (∃ queue : σ → List π,
      (∀ s, (trace.state i).queues.IsRing (.queue s) ((queue s).map .testNode)) ∧
      (∀ s, (queue s).Nodup ∧ (0 ≤ (trace.state i).value s → queue s = []) ∧
        ((trace.state i).value s < 0 → ((queue s).length : Int) = -(trace.state i).value s)) ∧
      (∀ p, (trace.state i).state p = .taskSleeping ↔ ∃ s, p ∈ queue s) ∧
      ∀ p s t, p ∈ queue s → p ∈ queue t → s = t) ∧
    (∀ s, ∃ after, (trace.state i).V s = some after ∧
      ((trace.state i).value s < 0 → ∃ p since,
        (trace.state i).queues.next (.queue s) = .testNode p ∧
        after.state = Function.update (trace.state i).state p .taskRunnable ∧
        BlockedSince trace s p since i ∧
        ∀ q other, BlockedSince trace s q other i → q = p ∨ since < other)) ∧
    (∀ s p, (trace.state i).current = some (.pcb p) →
      ∃ after, (trace.state i).P (Fintype.card π + 1) s = some after) ∧
    (∀ s p since j, BlockedSince trace s p since i → i ≤ j → j ≤ trace.length →
      (trace.state j).current = some (.pcb p) →
      ∃ m, since < m ∧ m < j ∧ trace.label m = .V s ∧
        (trace.state m).queues.next (.queue s) = .testNode p ∧
        (trace.state (m + 1)).state p = .taskRunnable) ∧
    (∃ after, (trace.state i).schedule (Fintype.card π + 1) = some after ∧
      ((trace.state i).current = none ∧ after.current = none ∨ after.Switched)) := by
  obtain ⟨sems, procs, blockedAt, sound, history⟩ := history_of_trace trace inside
  refine ⟨?_, ⟨fun s => (sems.sem s).queue, sound.represents.queue, ?_, ?_,
    sound.consistent.unique⟩, ?_, fun s p => sound.enabled_P, ?_, ?_⟩
  · intro s
    rw [sound.represents.value, history.value]
  · intro s
    rw [sound.represents.value]
    exact ⟨sound.consistent.nodup s, sound.consistent.queue_eq_nil,
      fun negative => sound.consistent.queue_length (Int.le_of_lt negative)⟩
  · intro p
    rw [sound.represents.state]
    exact sound.consistent.sleeping p
  · intro s
    obtain ⟨after, called, represents, _⟩ := V_refines sound.represents sound.consistent.orderly
    refine ⟨after, called, ?_⟩
    intro negative
    rw [sound.represents.value] at negative
    obtain ⟨p, rest, queue⟩ := sound.consistent.queue_eq_cons negative
    obtain ⟨since, blocked, longest⟩ := front_longest inside sound history queue
    refine ⟨p, since, ?_, ?_, blocked, longest⟩
    · rw [(sound.represents.queue s).next_head, queue]
      rfl
    · rw [represents.state, Sems.V_wake negative queue, sound.represents.state]
  · intro s p since j blocked later within running
    cases blocked.blocked_or_woken later within with
    | inl still =>
        exact absurd (still.asleep j still.earlier (Nat.le_refl j)) (awake_of_running within running)
    | inr woken => exact woken
  · obtain ⟨current, scheduled, switched, _⟩ :=
      schedule_spec sound.represents.procList (fun _ _ p _ => sound.all p) sound.enough
    exact ⟨_, scheduled, switched⟩

/-- Two processes on `proc_list` and one semaphore with the value 0. -/
def twoProcesses : Kernel (Fin 1) (Fin 2) where
  value := fun _ => 0
  queues := { prev := id, next := id }
  procs := listInsertBefore
    (listInsertBefore { prev := id, next := id } .procList (.node 0)) .procList (.node 1)
  state := fun _ => .taskRunnable
  current := some (.pcb 0)

theorem twoProcesses_initial : twoProcesses.Initial := by
  refine ⟨fun s => ⟨by simp, rfl, rfl⟩, fun s => Int.le_refl 0, by simp [twoProcesses],
    [0, 1], by decide, ?_⟩
  have none : Links.IsRing { prev := id, next := id } (ProcNode.procList : ProcNode (Fin 2)) [] :=
    ⟨by simp, rfl, rfl⟩
  have one := @listInsertBefore_head_ring _ _ _ _ (.node 0) _ none (by decide)
  exact listInsertBefore_head_ring one (by decide)

/-- The first process blocks, and the second wakes it. -/
def blockAndWake : (machine (Fin 1) (Fin 2)).Trace :=
  .ofLabels _ twoProcesses twoProcesses_initial .timer [.P 0, .V 0] rfl

theorem semaphores_over_runs_woken :
    (blockAndWake.state 1).value 0 = -1 ∧ (blockAndWake.state 1).state 0 = .taskSleeping ∧
      ∃ after p since, (blockAndWake.state 1).V 0 = some after ∧ after.state p = .taskRunnable ∧
        BlockedSince blockAndWake 0 p since 1 := by
  have value : (blockAndWake.state 1).value 0 = -1 := rfl
  obtain ⟨_, _, wakes, _⟩ := semaphores_over_runs blockAndWake (show 1 ≤ 2 by decide)
  obtain ⟨after, called, woken⟩ := wakes 0
  obtain ⟨p, since, _, state, blocked, _⟩ := woken (by rw [value]; decide)
  exact ⟨value, rfl, after, p, since, called, by simp [state], blocked⟩

end Histories

end Kernel

end WindOs.Sched
