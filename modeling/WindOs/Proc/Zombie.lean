import WindOs.Proc.Family

namespace WindOs.Proc

open Data Sync Sched

universe u v

/-! # Zombies

The process table together with the semaphores and the scheduler.  Four places
write `TASK_RUNNABLE`: `V`, `do_fork`, and the two wakeups of `send_chld_to_init`
behind a test of `waitstate`, which nothing ever sets to `WT_CHILD`.
-/

structure System (σ : Type u) (π : Type v) where
  table : ProcTable π
  value : σ → Int
  queues : Links (QueueNode σ π)
  current : Sched.Task π

/-- What the current process does next.  `chunk` and `stack` are the answers of
`malloc` and `alloc_page`, and `fuel` bounds the rounds of a loop. -/
inductive SystemOp (σ : Type u) (π : Type v) where
  | fork (chunk : Option π) (stack : Option Nat)
  | P (s : σ) (fuel : Nat)
  | V (s : σ)
  | schedule (fuel : Nat)
  | exit (fuel : Nat)
  | recycle (child : π)

namespace System

variable {σ : Type u} {π : Type v} [DecidableEq σ] [DecidableEq π]

def state (system : System σ π) (p : π) : ProcLifecircle :=
  (system.table.pcb (some p)).state

/-- The part of the system that `semaphore.c` and `sched.c` work on. -/
def kernel (system : System σ π) : Kernel σ π where
  value := system.value
  queues := system.queues
  procs := system.table.procs
  state := system.state
  current := some system.current

/-- The system after `semaphore.c` or `sched.c` has worked on that part. -/
def absorb (system : System σ π) (kernel : Kernel σ π) : System σ π where
  table := { system.table with
    procs := kernel.procs
    pcb := fun
      | none => system.table.pcb none
      | some p => { system.table.pcb (some p) with state := kernel.state p } }
  value := kernel.value
  queues := kernel.queues
  current := kernel.current.getD system.current

/-- `current` as a pointer. -/
def self (system : System σ π) : Option π :=
  match system.current with
  | .idle => system.table.idle
  | .pcb p => some p

/-- The current process has not exited; one that has can only be scheduled away. -/
def active (system : System σ π) : Bool :=
  match system.current with
  | .idle => true
  | .pcb p => system.state p ≠ .taskZombie

def step (system : System σ π) : SystemOp σ π → Option (System σ π)
  | .fork chunk stack =>
      if system.active ∧ chunk.all (fun pcb => !system.table.allocated pcb) then
        some { system with table := (system.table.doFork system.self chunk stack).2 }
      else none
  | .P s fuel => if system.active then (system.kernel.P fuel s).map system.absorb else none
  | .V s => if system.active then (system.kernel.V s).map system.absorb else none
  | .schedule fuel => (system.kernel.schedule fuel).map system.absorb
  | .exit fuel =>
      match system.current with
      | .idle => none
      | .pcb p =>
          if system.active then
            (system.table.doExit fuel (some p)).map fun table => { system with table }
          else none
  | .recycle child =>
      if system.active ∧ system.table.allocated child ∧ system.state child = .taskZombie then
        some { system with table := system.table.recycleChild child }
      else none

/-- The kernel after `proc_init`, with every semaphore fresh from `semaphore_init`. -/
structure Booted (system : System σ π) : Prop where
  table : ∃ (unbooted : ProcTable π) (idle : π) (kernStack : Nat),
    unbooted.Unbooted ∧ system.table = unbooted.procInit idle kernStack
  nonneg : ∀ s, 0 ≤ system.value s
  empty : ∀ s, system.queues.IsRing (.queue s) []
  idle : system.current = .idle

def machine (σ : Type u) (π : Type v) [DecidableEq σ] [DecidableEq π] :
    Machine (System σ π) (SystemOp σ π) where
  start := Booted
  step := step

end System

namespace ProcTable

variable {π : Type v} [DecidableEq π] {table after : ProcTable π} {ptr : Option π} {p q d : π}
  {write : Pcb π → Pcb π}

@[simp] theorem edit_waitstate {p : Option π} : ((table.edit ptr write).pcb p).waitstate =
    if p = ptr then (write (table.pcb p)).waitstate else (table.pcb p).waitstate := by
  rw [edit_pcb, apply_ite Pcb.waitstate]

/-- Nobody is woken and nobody gets a new parent. -/
structure Undisturbed (table after : ProcTable π) : Prop where
  state : ∀ q, (after.pcb (some q)).state = (table.pcb (some q)).state
  waitstate : ∀ q, (after.pcb (some q)).waitstate = (table.pcb (some q)).waitstate
  parent : ∀ q, (after.pcb (some q)).parent = (table.pcb (some q)).parent ∨
    (after.pcb (some q)).parent = none
  initProc : after.initProc = table.initProc

/-- With `init_proc` still `NULL`, handing a child over takes its parent away. -/
theorem handOver_undisturbed {current : Option π} (noInit : table.initProc = none) :
    table.Undisturbed (table.handOver current (some d)) := by
  refine ⟨?_, ?_, ?_, ?_⟩
  · intro q
    simp only [handOver]
    split <;> simp [wakeupProcess, adopt, detach, setParent, noInit]
  · intro q
    simp only [handOver]
    split <;> simp [wakeupProcess, adopt, detach, setParent, noInit]
  · intro q
    simp only [handOver]
    split <;> by_cases same : q = d <;>
      simp [wakeupProcess, adopt, detach, setParent, noInit, same]
  · simp only [handOver]
    split <;> simp [wakeupProcess, adopt, detach, setParent]

omit [DecidableEq π] in
theorem Undisturbed.trans {middle : ProcTable π} (first : table.Undisturbed middle)
    (second : middle.Undisturbed after) : table.Undisturbed after := by
  refine ⟨?_, ?_, ?_, second.initProc.trans first.initProc⟩
  · intro q
    rw [second.state, first.state]
  · intro q
    rw [second.waitstate, first.waitstate]
  · intro q
    rcases second.parent q with same | gone
    · rw [same]
      exact first.parent q
    · exact .inr gone

/-- A parent that does not wait for its children is not woken. -/
theorem wakeup_undisturbed
    (quiet : ∀ e, ptr = some e → (table.pcb (some e)).waitstate = .notWt) :
    table.Undisturbed
      (if (table.pcb ptr).waitstate = .wtChild then table.wakeupProcess ptr else table) := by
  split
  · next waits =>
      cases ptr with
      | none => exact ⟨by simp [wakeupProcess], by simp [wakeupProcess], by simp [wakeupProcess], rfl⟩
      | some e =>
          rw [quiet e rfl] at waits
          contradiction
  · exact ⟨fun _ => rfl, fun _ => rfl, fun _ => .inl rfl, rfl⟩

/-- An exit makes a zombie and does no more to the states. -/
theorem doExit_undisturbed {fuel : Nat} (noInit : table.initProc = none)
    (quiet : ∀ e, (table.pcb (some p)).parent = some e → (table.pcb (some e)).waitstate = .notWt)
    (exited : table.doExit fuel (some p) = some after) :
    (table.edit (some p) fun pcb => { pcb with state := .taskZombie }).Undisturbed after := by
  refine @loop_invariant _ _ _ _ _ _
    (table.edit (some p) fun pcb => { pcb with state := .taskZombie }).Undisturbed
    (table.edit (some p) fun pcb => { pcb with state := .taskZombie }).Undisturbed ?_ ?_ exited ?_
  · intro current next calm round
    split at round
    · next child =>
        cases round
        obtain ⟨c, child⟩ := Option.ne_none_iff_exists'.mp child
        rw [child]
        exact calm.trans (handOver_undisturbed (calm.initProc.trans noInit))
    · contradiction
  · intro current result calm round
    split at round
    · contradiction
    · cases round
      exact calm
  · apply wakeup_undisturbed
    intro e parent
    have parent : (table.pcb (some p)).parent = some e := by simpa using parent
    simpa using quiet e parent

theorem enlist_waitstate {pcb : π} {current : Option π} :
    ((table.enlist pcb current).pcb (some q)).waitstate = (table.pcb (some q)).waitstate := by
  simp [enlist, wakeupProcess, addLinks, setParent]

/-- A fork gives the PCB it got a wait state, and leaves the others theirs. -/
theorem doFork_waitstate {current chunk : Option π} {stack : Option Nat} :
    ((table.doFork current chunk stack).2.pcb (some q)).waitstate = .notWt ∨
      (((table.doFork current chunk stack).2.pcb (some q)).waitstate =
          (table.pcb (some q)).waitstate ∧
        (table.doFork current chunk stack).2.allocated q = table.allocated q) := by
  unfold doFork
  split
  · exact .inr ⟨rfl, rfl⟩
  · cases chunk with
    | none => exact .inr ⟨rfl, rfl⟩
    | some pcb =>
        cases stack with
        | none =>
            simp only [setKthreadStack, Option.map_none]
            by_cases same : q = pcb
            · exact .inl (by simp [free, createPcb, same])
            · exact .inr (by simp [free, createPcb, same])
        | some pages =>
            simp only [setKthreadStack, Option.map_some]
            cases found : clearBit table.pids with
            | none =>
                simp only [getPid, edit, createPcb, found, if_pos]
                by_cases same : q = pcb
                · exact .inl (by simp [freeStack, free, same])
                · exact .inr (by simp [freeStack, free, same])
            | some bit =>
                obtain ⟨i, j⟩ := bit
                have nonneg : ¬ ((i : Int) * 32 + j = -1) := by omega
                simp only [getPid, edit, createPcb, found, if_neg nonneg, enlist_waitstate]
                by_cases same : q = pcb
                · exact .inl (by simp [same])
                · exact .inr (by simp [same, enlist, wakeupProcess, addLinks, setParent])

theorem removeLinks_waitstate {z : π} : ((table.removeLinks (some z)).pcb (some q)).waitstate =
    (table.pcb (some q)).waitstate := by
  simp only [removeLinks, editUnlessNull_pcb]
  split <;> simp

theorem recycleChild_undisturbed {z : π} : table.Undisturbed (table.recycleChild z) := by
  refine ⟨?_, ?_, ?_, ?_⟩
  · intro q
    exact removeLinks_state
  · intro q
    exact removeLinks_waitstate
  · intro q
    exact .inl removeLinks_parent
  · simp only [recycleChild, free, freeStack, removeLinks, editUnlessNull_initProc]
    split <;> rfl

theorem recycleChild_allocated {z : π} : (table.recycleChild z).allocated =
    Function.update table.allocated z false := by
  simp only [recycleChild, free, freeStack, removeLinks, editUnlessNull_allocated]
  split <;> rfl

theorem recycleChild_idle {z : π} : (table.recycleChild z).idle = table.idle := by
  simp only [recycleChild, free, freeStack, removeLinks, editUnlessNull_idle]
  split <;> rfl

end ProcTable

namespace System

variable {σ : Type u} {π : Type v} [DecidableEq σ] [DecidableEq π]
variable {system after : System σ π} {queue : σ → List π} {list : List π} {idle p q : π} {s : σ}

/-! ## What holds in every reachable state -/

/-- The family of semaphores that the nodes in memory represent. -/
def sems (system : System σ π) (queue : σ → List π) : Sems σ π where
  sem s := { value := system.value s, queue := queue s }
  state := system.state

/-- The processes that the semaphores and the scheduler know are on `proc_list`, none of
them waits for a child or has a parent that does, and `idle` is there for ever. -/
structure Sound (system : System σ π) (queue : σ → List π) (list : List π) (idle : π) : Prop where
  queues : ∀ s, system.queues.IsRing (.queue s) ((queue s).map .testNode)
  procs : system.table.procs.IsRing .procList (list.map .node)
  orderly : (system.sems queue).Orderly
  queued : ∀ s, ∀ p ∈ queue s, p ∈ list
  listed : ∀ p, p ∈ list ↔ system.table.allocated p = true ∧ p ≠ idle
  named : system.table.idle = some idle
  present : system.table.allocated idle = true
  awake : system.state idle ≠ .taskZombie
  running : ∀ p, system.current = .pcb p → p ∈ list ∧ system.state p ≠ .taskSleeping
  noInit : system.table.initProc = none
  quiet : ∀ p, system.table.allocated p = true →
    (system.table.pcb (some p)).waitstate = .notWt ∧
      ∀ e, (system.table.pcb (some p)).parent = some e →
        (system.table.pcb (some e)).waitstate = .notWt

omit [DecidableEq σ] [DecidableEq π] in
theorem Sound.represents (sound : system.Sound queue list idle) :
    system.kernel.Represents (system.sems queue) list :=
  ⟨fun _ => rfl, rfl, sound.queues, sound.procs⟩

omit [DecidableEq σ] [DecidableEq π] in
/-- After `semaphore.c` or `sched.c` has run. -/
theorem Sound.absorb {kernel : Kernel σ π} {sems : Sems σ π} {task : Sched.Task π}
    (sound : system.Sound queue list idle) (represents : kernel.Represents sems list)
    (orderly : sems.Orderly) (queued : ∀ s, ∀ p ∈ (sems.sem s).queue, p ∈ list)
    (current : kernel.current = some task) (onList : Kernel.OnList list task)
    (wakes : ∀ p, task = .pcb p → kernel.state p ≠ .taskSleeping)
    (awake : kernel.state idle ≠ .taskZombie) :
    (system.absorb kernel).Sound (fun s => (sems.sem s).queue) list idle := by
  have same : (system.absorb kernel).sems (fun s => (sems.sem s).queue) = sems := by
    cases sems with
    | mk sem state =>
        have values : ∀ s, kernel.value s = (sem s).value := represents.value
        have states : kernel.state = state := represents.state
        simp only [System.sems, System.absorb, values, ← states]
        rfl
  refine ⟨represents.queue, represents.procList, by rw [same]; exact orderly, queued, sound.listed,
    sound.named, sound.present, awake, ?_, sound.noInit, sound.quiet⟩
  intro p runs
  have here : task = .pcb p := by simpa [System.absorb, current] using runs
  exact ⟨onList p here, wakes p here⟩

/-- What a step leaves of the zombies, and whom it may have switched to. -/
structure Kept (system : System σ π) (op : SystemOp σ π) (after : System σ π) : Prop where
  zombies : ∀ p, system.state p = .taskZombie → (∀ stack, op ≠ .fork (some p) stack) →
    after.state p = .taskZombie
  current : after.current = system.current ∨
    ∀ p, after.current = .pcb p → after.state p = .taskRunnable

theorem Sound.P {kernel : Kernel σ π} {fuel : Nat} (sound : system.Sound queue list idle)
    (active : system.active = true) (called : system.kernel.P fuel s = some kernel) :
    ∃ queue', (system.absorb kernel).Sound queue' list idle ∧
      Kept system (.P s fuel) (system.absorb kernel) := by
  cases current : system.current with
  | idle => simp [Kernel.P, System.kernel, current] at called
  | pcb p =>
      have running : system.kernel.current = some (.pcb p) := by rw [← current]; rfl
      obtain ⟨member, awake⟩ := sound.running p current
      have lives : system.state p ≠ .taskZombie := by simpa [System.active, current] using active
      obtain ⟨result, again, represents, switch, onList⟩ :=
        @Kernel.P_refines _ _ _ _ _ _ _ _ s p sound.represents sound.orderly member
          (Nat.lt_succ_self _) running awake
      have same := Kernel.P_unique running called again
      subst same
      have others : ∀ q, q ≠ p → kernel.state q = system.state q := by
        intro q other
        rw [represents.state, Sems.P_state]
        split
        · rfl
        · simp [other, System.sems]
      have queued : ∀ t, ∀ q ∈ (((system.sems queue).P s p).sem t).queue, q ∈ list := by
        intro t q inside
        obtain before | ⟨_, _, rfl⟩ := Sems.mem_P_queue.mp inside
        · exact sound.queued t q before
        · exact member
      have notIdle : idle ≠ p := fun same => ((sound.listed p).mp member).2 same.symm
      have idleAwake : kernel.state idle ≠ .taskZombie := by
        rw [others idle notIdle]
        exact sound.awake
      have zombies : ∀ q, system.state q = .taskZombie → kernel.state q = .taskZombie := by
        intro q dead
        have other : q ≠ p := fun same => lives (same ▸ dead)
        rw [others q other]
        exact dead
      by_cases positive : 0 < system.kernel.value s
      · rw [if_pos positive, running] at switch
        refine ⟨_, sound.absorb represents (sound.orderly.P awake) queued switch (onList _ switch)
          ?_ idleAwake, fun q dead _ => zombies q dead, .inl ?_⟩
        · intro q here
          cases here
          rw [represents.state, Sems.P_state,
            if_pos (show 0 < ((system.sems queue).sem s).value from positive)]
          exact awake
        · simp [System.absorb, switch, current]
      · rw [if_neg positive] at switch
        obtain ⟨task, chosen⟩ : ∃ task, kernel.current = some task := by
          obtain toIdle | ⟨q, toProcess, _⟩ := switch
          · exact ⟨_, toIdle⟩
          · exact ⟨_, toProcess⟩
        refine ⟨_, sound.absorb represents (sound.orderly.P awake) queued chosen (onList _ chosen)
          ?_ idleAwake, fun q dead _ => zombies q dead, .inr ?_⟩
        · intro q here
          exact switch.awake (by rw [chosen, here])
        · intro q here
          have chosen : kernel.current = some (.pcb q) := by
            simpa [System.absorb, chosen] using here
          exact switch.runnable chosen

theorem Sound.V {kernel : Kernel σ π} (sound : system.Sound queue list idle)
    (called : system.kernel.V s = some kernel) :
    ∃ queue', (system.absorb kernel).Sound queue' list idle ∧
      Kept system (.V s) (system.absorb kernel) := by
  obtain ⟨result, again, represents, current⟩ :=
    @Kernel.V_refines _ _ _ _ _ _ _ s sound.represents sound.orderly
  have same := Option.some.inj (again.symm.trans called)
  subst same
  have others : ∀ q, q ∉ queue s → result.state q = system.state q := by
    intro q absent
    rw [represents.state]
    exact Sems.V_state absent
  have unqueued : ∀ q, system.state q ≠ .taskSleeping → q ∉ queue s :=
    fun q awake => sound.orderly.not_queued (s := s) awake
  have running : result.current = some system.current := current
  refine ⟨_, sound.absorb represents sound.orderly.V ?_ running ?_ ?_ ?_, ?_, .inl ?_⟩
  · intro t q inside
    exact sound.queued t q (Sems.V_queue_sublist.subset inside)
  · intro q here
    exact (sound.running q here).1
  · intro q here
    have awake := (sound.running q here).2
    rw [others q (unqueued q awake)]
    exact awake
  · rw [others idle (fun inside => ((sound.listed idle).mp (sound.queued s idle inside)).2 rfl)]
    exact sound.awake
  · intro q dead _
    exact (others q (unqueued q (by simp [dead]))).trans dead
  · simp [System.absorb, running]

omit [DecidableEq σ] in
theorem Sound.schedule {kernel : Kernel σ π} {fuel : Nat} (sound : system.Sound queue list idle)
    (called : system.kernel.schedule fuel = some kernel) :
    (system.absorb kernel).Sound queue list idle ∧
      Kept system (.schedule fuel) (system.absorb kernel) ∧
      ∀ p, (system.absorb kernel).current = .pcb p →
        (system.absorb kernel).state p = .taskRunnable := by
  obtain ⟨current, again, switch, onList⟩ := @Kernel.schedule_spec _ _ _ system.kernel list _
    sound.procs
    (by
      intro task same p here
      have running : system.current = .pcb p := (Option.some.inj same).trans here
      exact (sound.running p running).1)
    (Nat.lt_succ_self _)
  have same := Kernel.schedule_unique called again
  subst same
  obtain ⟨nobody, _⟩ | switched := switch
  · contradiction
  · obtain ⟨task, chosen⟩ : ∃ task, current = some task := by
      obtain toIdle | ⟨q, toProcess, _⟩ := switched
      · exact ⟨_, toIdle⟩
      · exact ⟨_, toProcess⟩
    subst chosen
    have represents : Kernel.Represents { system.kernel with current := some task }
        (system.sems queue) list :=
      ⟨sound.represents.value, sound.represents.state, sound.queues, sound.procs⟩
    have runnable : ∀ p, (system.absorb { system.kernel with current := some task }).current =
        .pcb p → system.state p = .taskRunnable := by
      intro p here
      exact switched.runnable (show some task = some (.pcb p) from congrArg some here)
    refine ⟨sound.absorb represents sound.orderly sound.queued rfl (onList task rfl) ?_ sound.awake,
      ⟨fun q dead _ => dead, .inr runnable⟩, runnable⟩
    intro q here
    exact switched.awake (congrArg some here)

omit [DecidableEq σ] [DecidableEq π] in
/-- After a change of the process table that leaves the sleeping processes alone. -/
theorem Sound.retable {table : ProcTable π} {list' : List π}
    (sound : system.Sound queue list idle)
    (procs : table.procs.IsRing .procList (list'.map .node))
    (listed : ∀ p, p ∈ list' ↔ table.allocated p = true ∧ p ≠ idle)
    (sleepers : ∀ p ∈ list, system.state p = .taskSleeping →
      p ∈ list' ∧ (table.pcb (some p)).state = .taskSleeping)
    (named : table.idle = some idle) (present : table.allocated idle = true)
    (awake : (table.pcb (some idle)).state ≠ .taskZombie)
    (running : ∀ p, system.current = .pcb p →
      p ∈ list' ∧ (table.pcb (some p)).state ≠ .taskSleeping)
    (noInit : table.initProc = none)
    (quiet : ∀ p, table.allocated p = true → (table.pcb (some p)).waitstate = .notWt ∧
      ∀ e, (table.pcb (some p)).parent = some e → (table.pcb (some e)).waitstate = .notWt) :
    ({ system with table } : System σ π).Sound queue list' idle := by
  have asleep : ∀ s, ∀ p ∈ queue s, p ∈ list' ∧ (table.pcb (some p)).state = .taskSleeping := by
    intro s p inside
    exact sleepers p (sound.queued s p inside) (sound.orderly.asleep s p inside)
  refine ⟨sound.queues, procs, ?_, fun s p inside => (asleep s p inside).1, listed, named, present,
    awake, running, noInit, quiet⟩
  exact ⟨sound.orderly.waiting, sound.orderly.nodup, fun s p inside => (asleep s p inside).2,
    sound.orderly.unique⟩

omit [DecidableEq σ] [DecidableEq π] in
theorem Sound.self (sound : system.Sound queue list idle) :
    ∃ d, system.self = some d ∧ system.table.allocated d = true := by
  cases current : system.current with
  | idle => exact ⟨idle, by simp [System.self, current, sound.named], sound.present⟩
  | pcb p =>
      exact ⟨p, by simp [System.self, current],
        ((sound.listed p).mp (sound.running p current).1).1⟩

omit [DecidableEq σ] [DecidableEq π] in
/-- After a fork that failed.  Only the chunk that was given back may hold other data. -/
theorem Sound.untouched {table : ProcTable π} {chunk : Option π}
    (sound : system.Sound queue list idle)
    (untouched : ProcTable.Untouched system.table chunk table)
    (known : ∀ p, system.table.allocated p = true → chunk ≠ some p)
    (kept : ∀ e, (system.table.pcb (some e)).waitstate = .notWt →
      (table.pcb (some e)).waitstate = .notWt) :
    ({ system with table } : System σ π).Sound queue list idle := by
  have pcbs : ∀ p, system.table.allocated p = true →
      table.pcb (some p) = system.table.pcb (some p) :=
    fun p used => untouched.pcb p (known p used)
  have member : ∀ p ∈ list, system.table.allocated p = true :=
    fun p inside => ((sound.listed p).mp inside).1
  refine sound.retable ?_ ?_ ?_ ?_ ?_ ?_ ?_ ?_ ?_
  · rw [untouched.procs]
    exact sound.procs
  · rw [untouched.allocated]
    exact sound.listed
  · intro p inside asleep
    rw [pcbs p (member p inside)]
    exact ⟨inside, asleep⟩
  · exact untouched.idle.trans sound.named
  · rw [untouched.allocated]
    exact sound.present
  · rw [pcbs idle sound.present]
    exact sound.awake
  · intro p current
    obtain ⟨inside, awake⟩ := sound.running p current
    rw [pcbs p (member p inside)]
    exact ⟨inside, awake⟩
  · exact untouched.initProc.trans sound.noInit
  · intro p used
    rw [untouched.allocated] at used
    rw [pcbs p used]
    obtain ⟨own, parents⟩ := sound.quiet p used
    exact ⟨own, fun e parent => kept e (parents e parent)⟩

omit [DecidableEq σ] in
theorem enlisted_state {numbered : ProcTable π} {pcb d p : π} {i j : Nat}
    (new : ProcTable.Numbered system.table pcb i j numbered) (other : p ≠ pcb) :
    ((numbered.enlist pcb (some d)).pcb (some p)).state = system.state p := by
  rw [ProcTable.enlist_state, if_neg other, new.others _ (by simpa using other)]
  rfl

omit [DecidableEq σ] in
/-- After a fork that made a process, which is at the front of the list now. -/
theorem Sound.enlist {numbered : ProcTable π} {pcb d : π} {i j : Nat}
    (sound : system.Sound queue list idle)
    (new : ProcTable.Numbered system.table pcb i j numbered)
    (unused : system.table.allocated pcb = false) (live : system.table.allocated d = true)
    (kept : ∀ e, e = pcb ∨ (system.table.pcb (some e)).waitstate = .notWt →
      ((numbered.enlist pcb (some d)).pcb (some e)).waitstate = .notWt) :
    ({ system with table := numbered.enlist pcb (some d) } : System σ π).Sound queue (pcb :: list)
      idle := by
  have allocated : (numbered.enlist pcb (some d)).allocated =
      Function.update system.table.allocated pcb true := new.allocated
  have old : ∀ p, system.table.allocated p = true → p ≠ pcb := by
    intro p used same
    rw [same, unused] at used
    contradiction
  have states : ∀ p ∈ list, ((numbered.enlist pcb (some d)).pcb (some p)).state = system.state p :=
    fun p inside => enlisted_state new (old p ((sound.listed p).mp inside).1)
  have notListed : pcb ∉ list := fun inside => old pcb ((sound.listed pcb).mp inside).1 rfl
  refine sound.retable ?_ ?_ ?_ ?_ ?_ ?_ ?_ ?_ ?_
  · have procs : (numbered.enlist pcb (some d)).procs =
        listInsertAfter system.table.procs .procList (.node pcb) := by
      rw [← new.procs]
      rfl
    rw [procs]
    exact listInsertAfter_head_ring sound.procs (by simpa using notListed)
  · intro p
    rw [allocated, List.mem_cons, sound.listed]
    by_cases same : p = pcb
    · subst same
      simp [(old idle sound.present).symm]
    · simp [same]
  · intro p inside asleep
    rw [states p inside]
    exact ⟨by simp [inside], asleep⟩
  · exact new.idle.trans sound.named
  · rw [allocated, Function.update_of_ne (old idle sound.present)]
    exact sound.present
  · rw [enlisted_state new (old idle sound.present)]
    exact sound.awake
  · intro p current
    obtain ⟨inside, awake⟩ := sound.running p current
    rw [states p inside]
    exact ⟨by simp [inside], awake⟩
  · exact new.initProc.trans sound.noInit
  · intro p used
    rw [ProcTable.enlist_parent]
    by_cases same : p = pcb
    · rw [if_pos same]
      refine ⟨kept p (.inl same), ?_⟩
      intro e parent
      cases parent
      exact kept d (.inr (sound.quiet d live).1)
    · rw [if_neg same, new.others _ (by simpa using same)]
      have used : system.table.allocated p = true := by simpa [allocated, same] using used
      obtain ⟨own, parents⟩ := sound.quiet p used
      exact ⟨kept p (.inr own), fun e parent => kept e (.inr (parents e parent))⟩

omit [DecidableEq σ] in
theorem Sound.fork {chunk : Option π} {stack : Option Nat} (sound : system.Sound queue list idle)
    (free : chunk.all (fun pcb => !system.table.allocated pcb) = true) :
    ∃ list', ({ system with table := (system.table.doFork system.self chunk stack).2 } :
        System σ π).Sound queue list' idle ∧
      Kept system (.fork chunk stack)
        { system with table := (system.table.doFork system.self chunk stack).2 } := by
  obtain ⟨d, self, live⟩ := sound.self
  rw [self]
  have fresh : ∀ pcb, chunk = some pcb → system.table.allocated pcb = false := by
    intro pcb given
    subst given
    simpa using free
  have known : ∀ p, system.table.allocated p = true → chunk ≠ some p := by
    intro p used given
    rw [fresh p given] at used
    contradiction
  have waits := fun e => @ProcTable.doFork_waitstate _ _ system.table e (some d) chunk stack
  obtain ⟨_, untouched⟩ | ⟨pcb, i, j, numbered, given, new, forked, -⟩ :=
    @ProcTable.doFork_cases _ _ system.table (some d) chunk stack fresh
  · refine ⟨list, sound.untouched untouched known ?_, ?_, .inl rfl⟩
    · intro e before
      obtain reset | ⟨same, _⟩ := waits e
      · exact reset
      · exact same.trans before
    · intro p dead other
      have different : chunk ≠ some p := fun same => other stack (by rw [same])
      exact (congrArg Pcb.state (untouched.pcb p different)).trans dead
  · subst given
    have unused := fresh pcb rfl
    have added : (numbered.enlist pcb (some d)).allocated pcb = true := by
      rw [show (numbered.enlist pcb (some d)).allocated = _ from new.allocated, Function.update_self]
    rw [forked] at waits ⊢
    refine ⟨pcb :: list, sound.enlist new unused live ?_, ?_, .inl rfl⟩
    · intro e either
      obtain reset | ⟨same, absent⟩ := waits e
      · exact reset
      · cases either with
        | inl isNew =>
            -- The new process was not allocated before, so its field was reset.
            rw [isNew, unused, added] at absent
            contradiction
        | inr before => exact same.trans before
    · intro p dead other
      have different : p ≠ pcb := fun same => other stack (by rw [same])
      exact (enlisted_state new different).trans dead

omit [DecidableEq σ] in
theorem Sound.exit {table : ProcTable π} {fuel : Nat} (sound : system.Sound queue list idle)
    (current : system.current = .pcb p) (exited : system.table.doExit fuel (some p) = some table) :
    ({ system with table } : System σ π).Sound queue list idle ∧
      Kept system (.exit fuel) { system with table } ∧
      (table.pcb (some p)).state = .taskZombie := by
  obtain ⟨member, awake⟩ := sound.running p current
  obtain ⟨live, notIdle⟩ := (sound.listed p).mp member
  have books := (ProcTable.Rewired.doExit exited).books
  have calm := ProcTable.doExit_undisturbed sound.noInit (sound.quiet p live).2 exited
  have states : ∀ q, (table.pcb (some q)).state =
      if q = p then .taskZombie else system.state q := by
    intro q
    rw [calm.state]
    by_cases same : q = p <;> simp [same, System.state]
  have waits : ∀ q, (table.pcb (some q)).waitstate = (system.table.pcb (some q)).waitstate := by
    intro q
    rw [calm.waitstate]
    by_cases same : q = p <;> simp [same]
  refine ⟨sound.retable ?_ ?_ ?_ ?_ ?_ ?_ ?_ ?_ ?_, ⟨?_, .inl rfl⟩, ?_⟩
  · rw [books.procs]
    exact sound.procs
  · rw [books.allocated]
    exact sound.listed
  · intro q inside asleep
    have other : q ≠ p := fun same => awake (same ▸ asleep)
    rw [states, if_neg other]
    exact ⟨inside, asleep⟩
  · exact books.idle.trans sound.named
  · rw [books.allocated]
    exact sound.present
  · rw [states, if_neg (Ne.symm notIdle)]
    exact sound.awake
  · intro q here
    rw [current] at here
    cases here
    rw [states, if_pos rfl]
    exact ⟨member, by simp⟩
  · exact calm.initProc.trans sound.noInit
  · intro q used
    rw [books.allocated] at used
    obtain ⟨own, parents⟩ := sound.quiet q used
    refine ⟨(waits q).trans own, ?_⟩
    intro e parent
    rw [waits]
    obtain same | gone := calm.parent q
    · apply parents e
      rw [parent] at same
      by_cases here : q = p <;> simpa [here] using same.symm
    · rw [gone] at parent
      contradiction
  · intro q dead _
    change (table.pcb (some q)).state = _
    rw [states]
    split
    · rfl
    · exact dead
  · rw [states, if_pos rfl]

omit [DecidableEq σ] in
theorem Sound.recycle {child : π} (sound : system.Sound queue list idle)
    (active : system.active = true) (live : system.table.allocated child = true)
    (dead : system.state child = .taskZombie) :
    ({ system with table := system.table.recycleChild child } :
        System σ π).Sound queue (list.erase child) idle ∧
      Kept system (.recycle child)
        { system with table := system.table.recycleChild child } := by
  have calm := @ProcTable.recycleChild_undisturbed _ _ system.table child
  have notIdle : child ≠ idle := fun same => sound.awake (same ▸ dead)
  have member : child ∈ list := (sound.listed child).mpr ⟨live, notIdle⟩
  have nodup : list.Nodup := (List.nodup_cons.mp sound.procs.nodup).2.of_map _
  have remains : ∀ q, q ∈ list → system.state q ≠ .taskZombie → q ∈ list.erase child := by
    intro q inside alive
    have other : q ≠ child := fun same => alive (same ▸ dead)
    exact (List.mem_erase_of_ne other).mpr inside
  have allocated : (system.table.recycleChild child).allocated =
      Function.update system.table.allocated child false := ProcTable.recycleChild_allocated
  refine ⟨sound.retable (ProcTable.recycleChild_ring sound.procs member) ?_ ?_ ?_ ?_ ?_ ?_ ?_ ?_,
    ?_, .inl rfl⟩
  · intro q
    rw [allocated, nodup.mem_erase_iff, sound.listed]
    by_cases same : q = child
    · simp [same]
    · simp [same]
  · intro q inside asleep
    refine ⟨remains q inside (by simp [asleep]), ?_⟩
    rw [calm.state]
    exact asleep
  · exact ProcTable.recycleChild_idle.trans sound.named
  · rw [allocated, Function.update_of_ne (Ne.symm notIdle)]
    exact sound.present
  · rw [calm.state]
    exact sound.awake
  · intro q current
    obtain ⟨inside, awake⟩ := sound.running q current
    have lives : system.state q ≠ .taskZombie := by simpa [System.active, current] using active
    rw [calm.state]
    exact ⟨remains q inside lives, awake⟩
  · exact calm.initProc.trans sound.noInit
  · intro q used
    have used : system.table.allocated q = true := by
      by_cases same : q = child
      · simp [allocated, same] at used
      · simpa [allocated, same] using used
    obtain ⟨own, parents⟩ := sound.quiet q used
    refine ⟨(calm.waitstate q).trans own, ?_⟩
    intro e parent
    obtain same | gone := calm.parent q
    · exact (calm.waitstate e).trans (parents e (same.symm.trans parent))
    · rw [gone] at parent
      contradiction
  · intro q zombie _
    exact (calm.state q).trans zombie

/-! ## Runs -/

omit [DecidableEq σ] in
theorem Booted.sound (booted : system.Booted) : ∃ idle, system.Sound (fun _ => []) [] idle := by
  obtain ⟨unbooted, idle, kernStack, blank, table⟩ := booted.table
  have accounted := @ProcTable.Accounted.booted _ _ unbooted idle kernStack blank
  obtain ⟨_, parent, ready⟩ := @ProcTable.procInit_idle _ _ unbooted idle kernStack
  rw [← table] at accounted parent ready
  have only : ∀ p, system.table.allocated p = true ↔ p = idle := by
    intro p
    simpa using accounted.allocated p
  have waits : (system.table.pcb (some idle)).waitstate = .notWt := by
    have first : ProcTable.clearBit (fun _ => 0#32) = some (0, 0) := by decide +kernel
    simp [table, ProcTable.procInit, ProcTable.getPid, ProcTable.createPcb, ProcTable.edit, first]
  have noInit : system.table.initProc = none := by
    have first : ProcTable.clearBit (fun _ => 0#32) = some (0, 0) := by decide +kernel
    simp [table, ProcTable.procInit, ProcTable.getPid, ProcTable.createPcb, ProcTable.edit, first,
      blank.initProc]
  refine ⟨idle, booted.empty, accounted.ring, ⟨?_, ?_, ?_, ?_⟩, ?_, ?_, accounted.named,
    (only idle).mpr rfl, ?_, ?_, noInit, ?_⟩
  · intro s
    have bound := booted.nonneg s
    simp only [System.sems, List.length_nil, Int.natCast_zero]
    omega
  · simp [System.sems]
  · simp [System.sems]
  · simp [System.sems]
  · simp
  · intro p
    simp [only p]
  · simp [System.state, ready]
  · intro p current
    rw [booted.idle] at current
    contradiction
  · intro p used
    rw [(only p).mp used, parent]
    exact ⟨waits, by simp⟩

theorem Sound.step {op : SystemOp σ π} (sound : system.Sound queue list idle)
    (moved : system.step op = some after) :
    (∃ queue' list', after.Sound queue' list' idle) ∧ Kept system op after := by
  cases op with
  | fork chunk stack =>
      simp only [System.step] at moved
      split at moved
      · next enabled =>
          cases moved
          obtain ⟨list', next, kept⟩ := sound.fork enabled.2
          exact ⟨⟨_, _, next⟩, kept⟩
      · contradiction
  | P s fuel =>
      simp only [System.step] at moved
      split at moved
      · next active =>
          obtain ⟨kernel, called, rfl⟩ := Option.map_eq_some_iff.mp moved
          obtain ⟨queue', next, kept⟩ := sound.P active called
          exact ⟨⟨_, _, next⟩, kept⟩
      · contradiction
  | V s =>
      simp only [System.step] at moved
      split at moved
      · obtain ⟨kernel, called, rfl⟩ := Option.map_eq_some_iff.mp moved
        obtain ⟨queue', next, kept⟩ := sound.V called
        exact ⟨⟨_, _, next⟩, kept⟩
      · contradiction
  | schedule fuel =>
      obtain ⟨kernel, called, rfl⟩ := Option.map_eq_some_iff.mp moved
      obtain ⟨next, kept, _⟩ := sound.schedule called
      exact ⟨⟨_, _, next⟩, kept⟩
  | exit fuel =>
      simp only [System.step] at moved
      split at moved
      · contradiction
      · next p current =>
          split at moved
          · obtain ⟨table, exited, rfl⟩ := Option.map_eq_some_iff.mp moved
            obtain ⟨next, kept, _⟩ := sound.exit current exited
            exact ⟨⟨_, _, next⟩, kept⟩
          · contradiction
  | recycle child =>
      simp only [System.step] at moved
      split at moved
      · next enabled =>
          cases moved
          obtain ⟨active, live, dead⟩ := enabled
          obtain ⟨next, kept⟩ := sound.recycle active live dead
          exact ⟨⟨_, _, next⟩, kept⟩
      · contradiction

theorem sound_of_reachable (reached : (machine σ π).Reachable system) :
    ∃ queue list idle, system.Sound queue list idle := by
  apply @Machine.Reachable.invariant _ _ _ (fun system : System σ π =>
    ∃ queue list idle, system.Sound queue list idle) _ _ _ reached
  · intro system (booted : system.Booted)
    obtain ⟨idle, sound⟩ := booted.sound
    exact ⟨_, _, idle, sound⟩
  · intro before op after held moved
    obtain ⟨queue, list, idle, sound⟩ := held
    obtain ⟨⟨queue', list', next⟩, _⟩ := sound.step moved
    exact ⟨queue', list', idle, next⟩

/-- A zombie that still runs is at the end of `do_exit` and can only be switched away. -/
theorem Sound.zombie_switches {op : SystemOp σ π} (sound : system.Sound queue list idle)
    (current : system.current = .pcb p) (dead : system.state p = .taskZombie)
    (moved : system.step op = some after) : after.current ≠ .pcb p := by
  have inactive : system.active = false := by simp [System.active, current, dead]
  cases op with
  | schedule fuel =>
      obtain ⟨kernel, called, rfl⟩ := Option.map_eq_some_iff.mp moved
      obtain ⟨_, kept, runnable⟩ := sound.schedule called
      intro again
      have zombie := kept.zombies p dead (by simp)
      rw [runnable p again] at zombie
      contradiction
  | _ => simp [System.step, inactive, current] at moved

/-- From the step after its `do_exit` on, as long as its PCB is not given to another
process, a process is a zombie, and once control has left it, it never runs. -/
theorem zombie_never_runs (trace : (machine σ π).Trace) {i j fuel : Nat} {p : π} (later : i < j)
    (within : j ≤ trace.length) (runs : (trace.state i).current = .pcb p)
    (exits : trace.label i = .exit fuel)
    (own : ∀ k, i < k → k < j → ∀ stack, trace.label k ≠ .fork (some p) stack) :
    (trace.state j).state p = .taskZombie ∧
      (i + 1 < j → (trace.state j).current ≠ .pcb p) := by
  induction j, later using Nat.le_induction with
  | base =>
      refine ⟨?_, by omega⟩
      obtain ⟨queue, list, idle, sound⟩ := sound_of_reachable
        (trace.reachable (show i ≤ trace.length by omega))
      have moved := trace.step i (by omega)
      rw [exits] at moved
      change (trace.state i).step (.exit fuel) = _ at moved
      simp only [System.step, runs] at moved
      split at moved
      · obtain ⟨table, exited, after⟩ := Option.map_eq_some_iff.mp moved
        rw [← after]
        exact (sound.exit runs exited).2.2
      · contradiction
  | succ j later ih =>
      obtain ⟨dead, gone⟩ := ih (by omega) (fun k lower upper => own k lower (by omega))
      obtain ⟨queue, list, idle, sound⟩ := sound_of_reachable
        (trace.reachable (show j ≤ trace.length by omega))
      have moved := trace.step j (by omega)
      obtain ⟨_, kept⟩ := sound.step moved
      have still := kept.zombies p dead (own j (by omega) (by omega))
      refine ⟨still, fun _ => ?_⟩
      by_cases here : (trace.state j).current = .pcb p
      · exact sound.zombie_switches here dead moved
      · intro again
        obtain same | runnable := kept.current
        · exact here (same ▸ again)
        · rw [runnable p again] at still
          contradiction

/-- `idle` is PCB 0, and there is one semaphore with the value 0. -/
def bootedSystem : System (Fin 1) Nat where
  table := ProcTable.blank.procInit 0 0
  value := fun _ => 0
  queues := { prev := id, next := id }
  current := .idle

theorem bootedSystem_booted : bootedSystem.Booted :=
  ⟨⟨ProcTable.blank, 0, 0, ⟨fun _ => rfl, rfl, rfl⟩, rfl⟩, fun _ => le_refl _,
    fun _ => ⟨by simp, rfl, rfl⟩, rfl⟩

/-- `idle` starts a process, which starts another one; that one exits, and its parent
then runs, makes the semaphore available and reaps it. -/
def exitAndReap : (machine (Fin 1) Nat).Trace :=
  .ofLabels _ bootedSystem bootedSystem_booted (.schedule 0)
    [.fork (some 1) (some 0), .schedule 4, .fork (some 2) (some 0), .schedule 4, .exit 4,
      .schedule 4, .V 0, .recycle 2, .schedule 4] (by decide +kernel)

theorem zombie_never_runs_reaped :
    (exitAndReap.state 4).current = .pcb 2 ∧ (exitAndReap.state 4).state 2 = .taskRunnable ∧
      (exitAndReap.state 6).current = .pcb 1 ∧
      (exitAndReap.state 9).state 2 = .taskZombie ∧ (exitAndReap.state 9).current ≠ .pcb 2 := by
  have runs : (exitAndReap.state 4).current = .pcb 2 := by decide +kernel
  have own : ∀ k, 4 < k → k < 9 → ∀ stack, exitAndReap.label k ≠ .fork (some 2) stack := by
    intro k lower upper stack
    obtain rfl | rfl | rfl | rfl : k = 5 ∨ k = 6 ∨ k = 7 ∨ k = 8 := by omega
    all_goals simp [exitAndReap, Machine.Trace.ofLabels]
  obtain ⟨dead, gone⟩ := zombie_never_runs exitAndReap (show 4 < 9 by decide) (show 9 ≤ 9 by decide)
    runs rfl own
  exact ⟨runs, by decide +kernel, by decide +kernel, dead, gone (by decide)⟩

end System

end WindOs.Proc
