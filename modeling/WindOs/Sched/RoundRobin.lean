import WindOs.Sched.Kernel

namespace WindOs.Sched

open Data Sync

universe u v

namespace Kernel

variable {σ : Type u} {π : Type v} [DecidableEq π]
variable {procs : List π} {state : π → ProcLifecircle} {task : Task π} {p q : π}

/-! # Round robin

A search from `task` meets the processes of `proc_list` once round the ring.
While `p` stays runnable, the processes that can still be selected before it are
those the search meets before `p`, and every selection leaves fewer of them.
-/

/-- The processes that a search from `task` meets before it meets `p`. -/
def ahead (procs : List π) (p : π) (task : Task π) : List π :=
  (order procs task).takeWhile (· ≠ p)

theorem mem_order (listed : OnList procs task) (member : p ∈ procs) (other : task ≠ .pcb p) :
    p ∈ order procs task := by
  cases task with
  | idle => exact member
  | pcb q =>
      obtain ⟨front, back, rfl, outside⟩ := List.eq_append_cons_of_mem (listed q rfl)
      rw [order_split outside]
      have different : p ≠ q := fun same => other (by rw [same])
      simp only [List.mem_append, List.mem_cons, different, false_or] at member ⊢
      exact member.symm

theorem not_mem_order (nodup : procs.Nodup) (listed : p ∈ procs) : p ∉ order procs (.pcb p) := by
  obtain ⟨front, back, rfl, outside⟩ := List.eq_append_cons_of_mem listed
  rw [order_split outside]
  have behind : p ∉ back := by
    have tail := (List.nodup_append.mp nodup).2.1
    exact (List.nodup_cons.mp tail).1
  simp [outside, behind]

/-- A search that starts where another one stopped meets next what the other one
would have met next. -/
theorem order_resumes {skipped rest : List π} (nodup : procs.Nodup) (listed : OnList procs task)
    (split : order procs task = skipped ++ q :: rest) :
    ∃ more, order procs (.pcb q) = rest ++ more := by
  -- Wherever `q` stands in the list, it does not stand there twice.
  have resumes : ∀ front back, procs = front ++ q :: back →
      order procs (.pcb q) = back ++ front := by
    intro front back whole
    subst whole
    apply order_split
    intro inside
    exact (List.nodup_append.mp nodup).2.2 q inside q (by simp) rfl
  cases task with
  | idle => exact ⟨skipped, resumes skipped rest split⟩
  | pcb c =>
      obtain ⟨front, back, whole, outside⟩ := List.eq_append_cons_of_mem (listed c rfl)
      rw [whole, order_split outside] at split
      obtain ⟨between, _, inFront⟩ | ⟨between, inBack, atRest⟩ :=
        List.append_eq_append_iff.mp split
      · refine ⟨c :: back ++ between, ?_⟩
        rw [resumes between (rest ++ c :: back) (by simp [whole, inFront])]
        simp
      · cases between with
        | nil =>
            have here : front = q :: rest := atRest.symm
            refine ⟨c :: back, ?_⟩
            rw [resumes [] (rest ++ c :: back) (by simp [whole, here])]
            simp
        | cons first between =>
            obtain ⟨rfl, rfl⟩ := List.cons.inj atRest
            refine ⟨c :: skipped, ?_⟩
            rw [resumes (front ++ c :: skipped) between (by simp [whole, inBack])]
            simp

/-- While `p` is runnable, a search from elsewhere stops at `p` or at a process ahead
of it, and then only those behind that process are still ahead of `p`. -/
theorem selected_ahead (nodup : procs.Nodup) (listed : OnList procs task) (member : p ∈ procs)
    (other : task ≠ .pcb p) (runnable : state p = .taskRunnable) :
    selected state procs task = .pcb p ∨
      ∃ q skipped, selected state procs task = .pcb q ∧ q ∈ procs ∧
        ahead procs p task = skipped ++ q :: ahead procs p (.pcb q) := by
  cases first : (order procs task).find? (state · = .taskRunnable) with
  | none =>
      have idles := List.find?_eq_none.mp first p (mem_order listed member other)
      simp [runnable] at idles
  | some q =>
      have choice : selected state procs task = .pcb q := by simp [selected, first]
      rw [choice]
      by_cases reached : q = p
      · exact .inl (by rw [reached])
      · obtain ⟨_, skipped, rest, split, unready⟩ := List.find?_eq_some_iff_append.mp first
        have passed : ∀ r ∈ skipped ++ [q], decide (r ≠ p) = true := by
          intro r inside
          obtain before | last := List.mem_append.mp inside
          · have idles : state r ≠ .taskRunnable := by simpa using unready r before
            simpa using fun same : r = p => idles (same ▸ runnable)
          · have here : r = q := by simpa using last
            simpa [here] using reached
        have later : p ∈ rest := by
          have meets := mem_order listed member other
          have before : p ∉ skipped ++ [q] := fun inside => by simpa using passed p inside
          rw [split] at meets
          simp only [List.mem_append, List.mem_cons, List.not_mem_nil, or_false, not_or] at meets before
          tauto
        obtain ⟨more, resumes⟩ := order_resumes nodup listed split
        obtain ⟨near, far, rfl, outside⟩ := List.eq_append_cons_of_mem later
        have clear : ∀ r ∈ near, decide (r ≠ p) = true := by
          intro r inside
          simpa using fun same : r = p => outside (same ▸ inside)
        have stops : ∀ tail, (near ++ p :: tail).takeWhile (· ≠ p) = near := by
          intro tail
          rw [List.takeWhile_append_of_pos clear]
          simp
        refine .inr ⟨q, skipped, rfl, ?_, ?_⟩
        · exact order_subset (by rw [split]; simp)
        · rw [ahead, ahead, resumes, split, List.append_assoc, List.cons_append, stops]
          rw [← List.singleton_append, ← List.append_assoc, List.takeWhile_append_of_pos passed,
            stops]
          simp

theorem selected_idle_iff (nodup : procs.Nodup) (listed : OnList procs task) :
    selected state procs task = .idle ↔
      ∀ q ∈ procs, .pcb q ≠ task → state q ≠ .taskRunnable := by
  have choice : selected state procs task = .idle ↔
      (order procs task).find? (state · = .taskRunnable) = none := by
    unfold selected
    split
    · next pcb first => simp [first]
    · next first => simp [first]
  rw [choice, List.find?_eq_none]
  constructor
  · intro unready q member other runnable
    have idles := unready q (mem_order listed member (Ne.symm other))
    simp [runnable] at idles
  · intro unready q met
    have other : .pcb q ≠ task := by
      intro same
      subst same
      exact not_mem_order nodup (listed q rfl) met
    simpa using unready q (order_subset met) other

/-- Consecutive calls of `schedule()` on one `proc_list`: between them nothing
switches and `p` stays runnable; the other states are free. -/
structure Calls (procs : List π) (p : π) (fuel : Nat) (before after : Nat → Kernel σ π)
    (count : Nat) : Prop where
  ring : ∀ i < count, (before i).procs.IsRing .procList (procs.map .node)
  start : ∃ task, (before 0).current = some task ∧ OnList procs task
  called : ∀ i < count, (before i).schedule fuel = some (after i)
  resumed : ∀ i, i + 1 < count → (before (i + 1)).current = (after i).current
  waiting : ∀ i < count, (before i).state p = .taskRunnable

variable {before after : Nat → Kernel σ π} {count fuel i j : Nat}

theorem Calls.selects (calls : Calls procs p fuel before after count)
    (enough : procs.length < fuel) (inside : i < count) (running : (before i).current = some task)
    (listed : OnList procs task) :
    (after i).current = some (selected (before i).state procs task) := by
  have scheduled := schedule_eq (calls.ring i inside) running listed enough
  rw [calls.called i inside] at scheduled
  rw [Option.some.inj scheduled]
  rfl

theorem Calls.running (calls : Calls procs p fuel before after count)
    (enough : procs.length < fuel) (inside : i < count) :
    ∃ task, (before i).current = some task ∧ OnList procs task := by
  induction i with
  | zero => exact calls.start
  | succ i ih =>
      obtain ⟨task, running, listed⟩ := ih (by omega)
      rw [calls.resumed i inside]
      exact ⟨_, calls.selects enough (by omega) running listed, selected_onList⟩

theorem Calls.nodup (calls : Calls procs p fuel before after count) (inside : i < count) :
    procs.Nodup := by
  have nodes := (List.nodup_cons.mp (calls.ring i inside).nodup).2
  exact List.Nodup.of_map _ nodes

/-- Until `p` is selected, the selections after one of them are processes ahead of `p`. -/
theorem Calls.ahead (calls : Calls procs p fuel before after count)
    (enough : procs.length < fuel) (member : p ∈ procs) (later : i < j) (inside : j < count)
    (first : (after i).current = some task)
    (without : ∀ k, i ≤ k → k ≤ j → (after k).current ≠ some (.pcb p)) :
    ∃ q skipped, (after j).current = some (.pcb q) ∧ q ∈ procs ∧
      ahead procs p task = skipped ++ q :: ahead procs p (.pcb q) := by
  -- The step from one call to the next, whatever ran in between.
  have step : ∀ k current, i ≤ k → k + 1 ≤ j → (after k).current = some current →
      ∃ q skipped, (after (k + 1)).current = some (.pcb q) ∧ q ∈ procs ∧
        Kernel.ahead procs p current = skipped ++ q :: Kernel.ahead procs p (.pcb q) := by
    intro k current lower upto runs
    obtain ⟨ran, running, listed⟩ := calls.running (i := k + 1) enough (by omega)
    have same : ran = current := by
      rw [calls.resumed k (by omega), runs] at running
      exact (Option.some.inj running).symm
    subst same
    have other : ran ≠ .pcb p := fun equal => without k lower (by omega) (by rw [runs, equal])
    have selects := calls.selects enough (show k + 1 < count by omega) running listed
    obtain reached | ⟨q, skipped, chosen, inList, split⟩ := selected_ahead
      (calls.nodup inside) listed member other (calls.waiting (k + 1) (by omega))
    · exact absurd (by rw [selects, reached]) (without (k + 1) (by omega) upto)
    · exact ⟨q, skipped, by rw [selects, chosen], inList, split⟩
  induction j, later using Nat.le_induction with
  | base => exact step i task le_rfl le_rfl first
  | succ j later ih =>
      obtain ⟨q, skipped, runs, _, split⟩ :=
        ih (by omega) (fun k lower upper => without k lower (by omega))
          (fun k current lower upper => step k current lower (by omega))
      obtain ⟨r, more, next, inList, further⟩ := step j (.pcb q) (by omega) le_rfl runs
      refine ⟨r, skipped ++ q :: more, next, inList, ?_⟩
      rw [split, further]
      simp

/-- `schedule()` takes the first runnable process behind the current one, and so
nobody is selected twice while a runnable process waits for its turn. -/
theorem round_robin (procs : List π) (fuel : Nat) (enough : procs.length < fuel) :
    (∀ (kernel : Kernel σ π) (task : Task π),
      kernel.procs.IsRing .procList (procs.map .node) → kernel.current = some task →
      OnList procs task →
        kernel.schedule fuel = some (kernel.runThread (selected kernel.state procs task)) ∧
        (selected kernel.state procs task = .idle ↔
          ∀ q ∈ procs, .pcb q ≠ task → kernel.state q ≠ .taskRunnable)) ∧
    (∀ p ∈ procs, ∀ (before after : Nat → Kernel σ π) (count : Nat),
      Calls procs p fuel before after count →
      ∀ i j task, i < j → j < count → (after i).current = some task →
        (after j).current = some task → task ≠ .pcb p →
        ∃ k, i < k ∧ k < j ∧ (after k).current = some (.pcb p)) := by
  constructor
  · intro kernel task ring running listed
    have nodup : procs.Nodup := List.Nodup.of_map _ (List.nodup_cons.mp ring.nodup).2
    exact ⟨schedule_eq ring running listed enough, selected_idle_iff nodup listed⟩
  · intro p member before after count calls i j task later inside first second other
    by_contra none
    have without : ∀ k, i ≤ k → k ≤ j → (after k).current ≠ some (.pcb p) := by
      intro k lower upper runs
      by_cases start : k = i
      · rw [start, first] at runs
        exact other (Option.some.inj runs)
      by_cases finish : k = j
      · rw [finish, second] at runs
        exact other (Option.some.inj runs)
      exact none ⟨k, by omega, by omega, runs⟩
    obtain ⟨q, skipped, runs, inList, split⟩ :=
      calls.ahead enough member later inside first without
    rw [second] at runs
    cases runs
    have inside : q ∈ ahead procs p (.pcb q) := by
      have same := congrArg (q ∈ ·) split
      simp only [List.mem_append, List.mem_cons, true_or, or_true, eq_iff_iff, iff_true] at same
      exact same
    exact not_mem_order (calls.nodup ‹_›) inList ((List.takeWhile_sublist _).subset inside)

/-- Three runnable processes; `idle` runs. -/
def threeProcesses : Kernel (Fin 1) (Fin 3) where
  value := fun _ => 0
  queues := { prev := id, next := id }
  procs := listInsertBefore (listInsertBefore
    (listInsertBefore { prev := id, next := id } .procList (.node 0)) .procList (.node 1))
      .procList (.node 2)
  state := fun _ => .taskRunnable
  current := some .idle

/-- Before call `i` the second process blocks and is woken again on alternate turns. -/
def turn (i : Nat) (kernel : Kernel (Fin 1) (Fin 3)) : Kernel (Fin 1) (Fin 3) :=
  { kernel with state := fun q =>
      if q = 1 ∧ i % 2 = 1 then .taskSleeping else .taskRunnable }

def turns : Nat → Kernel (Fin 1) (Fin 3)
  | 0 => threeProcesses
  | i + 1 => turn (i + 1) (((turns i).schedule 4).getD (turns i))

theorem turns_calls : Calls [0, 1, 2] 2 4 turns
    (fun i => ((turns i).schedule 4).getD (turns i)) 3 := by
  have none : Links.IsRing { prev := id, next := id } (ProcNode.procList : ProcNode (Fin 3)) [] :=
    ⟨by simp, rfl, rfl⟩
  have one := @listInsertBefore_head_ring _ _ _ _ (.node 0) _ none (by decide)
  have two := @listInsertBefore_head_ring _ _ _ _ (.node 1) _ one (by decide)
  have three := @listInsertBefore_head_ring _ _ _ _ (.node 2) _ two (by decide)
  refine ⟨?_, ⟨.idle, rfl, by simp [OnList]⟩, ?_, ?_, ?_⟩
  · intro i inside
    obtain rfl | rfl | rfl : i = 0 ∨ i = 1 ∨ i = 2 := by omega
    all_goals exact three
  · intro i inside
    obtain rfl | rfl | rfl : i = 0 ∨ i = 1 ∨ i = 2 := by omega
    all_goals rfl
  · intro i inside
    rfl
  · intro i inside
    obtain rfl | rfl | rfl : i = 0 ∨ i = 1 ∨ i = 2 := by omega
    all_goals rfl

/-- The first process is selected at the first call and at the third, the last one between. -/
theorem round_robin_turns :
    ((turns 0).schedule 4).map Kernel.current = some (some (.pcb 0)) ∧
      ((turns 2).schedule 4).map Kernel.current = some (some (.pcb 0)) ∧
      ∃ k, 0 < k ∧ k < 2 ∧
        (((turns k).schedule 4).getD (turns k)).current = some (.pcb 2) :=
  ⟨rfl, rfl, (round_robin [0, 1, 2] 4 (by decide)).2 2 (by decide) _ _ 3 turns_calls 0 2 (.pcb 0)
    (by decide) (by decide) rfl rfl (by decide)⟩

/-! ## Work conservation

The search stops before it returns to the process it started from, so that one is
never taken for runnable.
-/

/-- `schedule()` returns, and leaves `idle` running only when nobody on `proc_list` can run. -/
def WorkConserving (kernel : Kernel σ π) (procs : List π) : Prop :=
  ∃ fuel after, kernel.schedule fuel = some after ∧
    (after.current = some .idle → ∀ q ∈ procs, kernel.state q ≠ .taskRunnable)

/-- The current process can run, and it is the only one that can. -/
def OnlyCurrentRunnable (kernel : Kernel σ π) (procs : List π) : Prop :=
  ∃ p, kernel.current = some (.pcb p) ∧ kernel.state p = .taskRunnable ∧
    ∀ q ∈ procs, q ≠ p → kernel.state q ≠ .taskRunnable

theorem selected_conserves (nodup : procs.Nodup) (listed : OnList procs task) :
    (selected state procs task = .idle → ∀ q ∈ procs, state q ≠ .taskRunnable) ↔
      ¬ ∃ p, task = .pcb p ∧ state p = .taskRunnable ∧
        ∀ q ∈ procs, q ≠ p → state q ≠ .taskRunnable := by
  rw [selected_idle_iff nodup listed]
  constructor
  · rintro conserves ⟨p, rfl, runnable, alone⟩
    have others : ∀ q ∈ procs, .pcb q ≠ Task.pcb p → state q ≠ .taskRunnable :=
      fun q member other => alone q member fun same => other (by rw [same])
    exact conserves others p (listed p rfl) runnable
  · intro busy others q member runnable
    by_cases current : Task.pcb q = task
    · apply busy
      refine ⟨q, current.symm, runnable, ?_⟩
      intro r inside different
      exact others r inside fun same => different (Task.pcb.inj (same.trans current.symm))
    · exact others q member current runnable

/-- `schedule()` conserves work unless the process it was called from is the only
one that can run: that one is passed over for `idle`. -/
theorem work_conserving_iff (kernel : Kernel σ π) (procs : List π)
    (ring : kernel.procs.IsRing .procList (procs.map .node))
    (listed : ∀ task, kernel.current = some task → OnList procs task) :
    kernel.WorkConserving procs ↔ ¬ kernel.OnlyCurrentRunnable procs := by
  have nodup : procs.Nodup := List.Nodup.of_map _ (List.nodup_cons.mp ring.nodup).2
  cases running : kernel.current with
  | none =>
      have idles : ¬ kernel.OnlyCurrentRunnable procs := by
        rintro ⟨p, same, -⟩
        rw [running] at same
        cases same
      have returns : kernel.schedule 0 = some kernel := by simp only [schedule, running]
      refine iff_of_true ⟨0, kernel, returns, ?_⟩ idles
      intro idle
      rw [running] at idle
      cases idle
  | some task =>
      have scheduled := schedule_eq ring running (listed task running) (Nat.lt_succ_self _)
      have conserves := @selected_conserves _ _ procs kernel.state task nodup (listed task running)
      have only : kernel.OnlyCurrentRunnable procs ↔ ∃ p, task = .pcb p ∧
          kernel.state p = .taskRunnable ∧ ∀ q ∈ procs, q ≠ p → kernel.state q ≠ .taskRunnable := by
        simp only [OnlyCurrentRunnable, running, Option.some.injEq]
      rw [only, ← conserves]
      constructor
      · rintro ⟨fuel, after, called, conserved⟩ idle
        rw [schedule_unique called scheduled] at conserved
        exact conserved (by rw [idle]; rfl)
      · intro conserved
        exact ⟨_, _, scheduled, fun idle => conserved (Option.some.inj idle)⟩

/-- The first of the three processes runs; the other two sleep. -/
def oneAwake : Kernel (Fin 1) (Fin 3) :=
  { threeProcesses with
    state := fun q => if q = 0 then .taskRunnable else .taskSleeping
    current := some (.pcb 0) }

/-- The second process is woken as well. -/
def twoAwake : Kernel (Fin 1) (Fin 3) :=
  { oneAwake with state := Function.update oneAwake.state 1 .taskRunnable }

theorem work_conserving_iff_two_awake : twoAwake.WorkConserving [0, 1, 2] := by
  refine (work_conserving_iff twoAwake [0, 1, 2] (turns_calls.ring 0 (by decide)) ?_).mpr ?_
  · intro task running
    cases running
    simp [OnList]
  · rintro ⟨p, running, -, alone⟩
    cases running
    exact alone 1 (by decide) (by decide) rfl

/-- The timer interrupts the only process that is awake, and `idle` runs. -/
theorem runnable_passed_over : ¬ oneAwake.WorkConserving [0, 1, 2] := by
  rintro ⟨fuel, after, called, conserves⟩
  have idles : oneAwake.schedule 4 = some (oneAwake.runThread .idle) := rfl
  rw [schedule_unique called idles] at conserves
  exact conserves rfl 0 (by decide) rfl

end Kernel

end WindOs.Sched
