import Mathlib.Data.List.Nodup
import Mathlib.Logic.Function.Basic

namespace WindOs.Sync

universe u v

/-! # Counting semaphores with a first-in first-out queue

This is `semaphore.c` with the wait queue read as a sequence of processes.
`P` is the part of the call up to `schedule()`; what `schedule` does and how the
queue lies in memory is the subject of `WindOs.Sched.Kernel`.
-/

/-- `enum proc_lifecircle`. -/
inductive ProcLifecircle where
  | taskReady
  | taskSleeping
  | taskRunnable
  | taskZombie
deriving DecidableEq, Repr

/-- `struct semaphore_t`.  `value` is an `int`: a run in which it would leave the
range of `int` has no defined meaning in C, so the integers stand for it. -/
structure Semaphore (π : Type v) where
  value : Int
  queue : List π
deriving Repr

def semaphoreInit {π : Type v} (value : Int) : Semaphore π :=
  { value, queue := [] }

/-- A family of semaphores and the `state` fields of the processes that use them. -/
structure Sems (σ : Type u) (π : Type v) where
  sem : σ → Semaphore π
  state : π → ProcLifecircle

namespace Sems

variable {σ : Type u} {π : Type v} {sems : Sems σ π} {s other : σ} {current p : π}

def P [DecidableEq σ] [DecidableEq π] (sems : Sems σ π) (s : σ) (current : π) : Sems σ π :=
  let value := (sems.sem s).value - 1
  if value < 0 then
    { sem := Function.update sems.sem s { value, queue := (sems.sem s).queue ++ [current] }
      state := Function.update sems.state current .taskSleeping }
  else
    { sems with sem := Function.update sems.sem s { value, queue := (sems.sem s).queue } }

def V [DecidableEq σ] [DecidableEq π] (sems : Sems σ π) (s : σ) : Sems σ π :=
  let value := (sems.sem s).value + 1
  if value ≤ 0 then
    match (sems.sem s).queue with
    | pcb :: rest =>
        { sem := Function.update sems.sem s { value, queue := rest }
          state := Function.update sems.state pcb .taskRunnable }
    -- Here `s->queue.next` is the sentinel; a consistent family never gets here.
    | [] => { sems with sem := Function.update sems.sem s { value, queue := [] } }
  else
    { sems with sem := Function.update sems.sem s { value, queue := (sems.sem s).queue } }

/-- Counters, queues and process states agree. -/
structure Consistent (sems : Sems σ π) : Prop where
  waiting : ∀ s, ((sems.sem s).queue.length : Int) = max 0 (-(sems.sem s).value)
  nodup : ∀ s, (sems.sem s).queue.Nodup
  sleeping : ∀ p, sems.state p = .taskSleeping ↔ ∃ s, p ∈ (sems.sem s).queue
  unique : ∀ p s other, p ∈ (sems.sem s).queue → p ∈ (sems.sem other).queue → s = other

/-- Before the first `P`: no counter is negative, and nobody waits or sleeps. -/
structure Initial (sems : Sems σ π) : Prop where
  empty : ∀ s, sems.sem s = semaphoreInit (sems.sem s).value
  nonneg : ∀ s, 0 ≤ (sems.sem s).value
  awake : ∀ p, sems.state p ≠ .taskSleeping

theorem Initial.consistent (initial : sems.Initial) : sems.Consistent := by
  have noQueue : ∀ s, (sems.sem s).queue = [] := fun s => by
    rw [initial.empty s]
    rfl
  refine ⟨?_, ?_, ?_, ?_⟩
  · intro s
    have bound := initial.nonneg s
    simp only [noQueue, List.length_nil, Int.natCast_zero]
    omega
  · intro s
    simp [noQueue]
  · intro p
    simp [noQueue, initial.awake p]
  · intro p s other member
    simp [noQueue] at member

/-- The half of consistency that the operations themselves rely on: whoever waits
sleeps.  It says nothing of processes that are on no queue. -/
structure Orderly (sems : Sems σ π) : Prop where
  waiting : ∀ s, ((sems.sem s).queue.length : Int) = max 0 (-(sems.sem s).value)
  nodup : ∀ s, (sems.sem s).queue.Nodup
  asleep : ∀ s, ∀ p ∈ (sems.sem s).queue, sems.state p = .taskSleeping
  unique : ∀ p s other, p ∈ (sems.sem s).queue → p ∈ (sems.sem other).queue → s = other

theorem Consistent.orderly (consistent : sems.Consistent) : sems.Orderly :=
  ⟨consistent.waiting, consistent.nodup, fun s p member => (consistent.sleeping p).mpr ⟨s, member⟩,
    consistent.unique⟩

theorem Orderly.queue_eq_cons (orderly : sems.Orderly)
    (negative : (sems.sem s).value < 0) : ∃ pcb rest, (sems.sem s).queue = pcb :: rest := by
  have count := orderly.waiting s
  cases queue : (sems.sem s).queue with
  | nil =>
      rw [queue] at count
      simp only [List.length_nil, Int.natCast_zero] at count
      omega
  | cons pcb rest => exact ⟨pcb, rest, rfl⟩

theorem Orderly.not_queued (orderly : sems.Orderly) (awake : sems.state p ≠ .taskSleeping) :
    p ∉ (sems.sem s).queue :=
  fun member => awake (orderly.asleep s p member)

theorem Consistent.queue_eq_nil (consistent : sems.Consistent) (nonneg : 0 ≤ (sems.sem s).value) :
    (sems.sem s).queue = [] := by
  have count := consistent.waiting s
  apply List.eq_nil_of_length_eq_zero
  omega

theorem Consistent.queue_length (consistent : sems.Consistent) (negative : (sems.sem s).value ≤ 0) :
    ((sems.sem s).queue.length : Int) = -(sems.sem s).value := by
  have count := consistent.waiting s
  omega

theorem Consistent.queue_eq_cons (consistent : sems.Consistent)
    (negative : (sems.sem s).value < 0) : ∃ pcb rest, (sems.sem s).queue = pcb :: rest :=
  consistent.orderly.queue_eq_cons negative

theorem Consistent.not_queued (consistent : sems.Consistent)
    (awake : sems.state p ≠ .taskSleeping) : p ∉ (sems.sem s).queue :=
  consistent.orderly.not_queued awake

section Operations

variable [DecidableEq σ] [DecidableEq π]

theorem P_pass (positive : 0 < (sems.sem s).value) :
    sems.P s current = { sems with
      sem := Function.update sems.sem s
        { value := (sems.sem s).value - 1, queue := (sems.sem s).queue } } := by
  have enough : ¬ (sems.sem s).value - 1 < 0 := by omega
  simp only [P, if_neg enough]

theorem P_block (exhausted : (sems.sem s).value ≤ 0) :
    sems.P s current =
      { sem := Function.update sems.sem s
          { value := (sems.sem s).value - 1, queue := (sems.sem s).queue ++ [current] }
        state := Function.update sems.state current .taskSleeping } := by
  have short : (sems.sem s).value - 1 < 0 := by omega
  simp only [P, if_pos short]

theorem V_free (nonneg : 0 ≤ (sems.sem s).value) :
    sems.V s = { sems with
      sem := Function.update sems.sem s
        { value := (sems.sem s).value + 1, queue := (sems.sem s).queue } } := by
  have positive : ¬ (sems.sem s).value + 1 ≤ 0 := by omega
  simp only [V, if_neg positive]

theorem V_wake {pcb : π} {rest : List π} (negative : (sems.sem s).value < 0)
    (queue : (sems.sem s).queue = pcb :: rest) :
    sems.V s =
      { sem := Function.update sems.sem s { value := (sems.sem s).value + 1, queue := rest }
        state := Function.update sems.state pcb .taskRunnable } := by
  have still : (sems.sem s).value + 1 ≤ 0 := by omega
  simp only [V, if_pos still, queue]

theorem P_value : ((sems.P s current).sem other).value =
    (sems.sem other).value - if other = s then 1 else 0 := by
  by_cases same : other = s
  · subst same
    by_cases short : (sems.sem other).value - 1 < 0 <;> simp [P, short]
  · by_cases short : (sems.sem s).value - 1 < 0 <;> simp [P, short, same]

theorem mem_P_queue : p ∈ ((sems.P s current).sem other).queue ↔
    p ∈ (sems.sem other).queue ∨ ((sems.sem s).value ≤ 0 ∧ other = s ∧ p = current) := by
  by_cases positive : 0 < (sems.sem s).value
  · rw [P_pass positive]
    by_cases same : other = s
    · subst same
      simp [Int.not_le.mpr positive]
    · simp [same]
  · have exhausted : (sems.sem s).value ≤ 0 := by omega
    rw [P_block exhausted]
    by_cases same : other = s
    · subst same
      simp [exhausted]
    · simp [same]

theorem V_value : ((sems.V s).sem other).value =
    (sems.sem other).value + if other = s then 1 else 0 := by
  by_cases still : (sems.sem s).value + 1 ≤ 0
  · cases queue : (sems.sem s).queue <;> by_cases same : other = s <;>
      simp [V, still, queue, same]
  · by_cases same : other = s <;> simp [V, still, same]

/-- `V` wakes nobody but a waiting process. -/
theorem V_state (absent : p ∉ (sems.sem s).queue) : (sems.V s).state p = sems.state p := by
  unfold V
  simp only
  split
  · cases queue : (sems.sem s).queue with
    | nil => rfl
    | cons pcb rest =>
        have different : p ≠ pcb := fun same => absent (by simp [queue, same])
        simp [different]
  · rfl

theorem V_queue_sublist : ((sems.V s).sem other).queue.Sublist (sems.sem other).queue := by
  by_cases here : other = s
  · subst here
    by_cases still : (sems.sem other).value + 1 ≤ 0
    · cases queue : (sems.sem other).queue <;> simp [V, still, queue]
    · simp [V, still]
  · by_cases still : (sems.sem s).value + 1 ≤ 0
    · cases queue : (sems.sem s).queue <;> simp [V, still, queue, here]
    · simp [V, still, here]

/-- Which processes wait after a `V` that wakes one. -/
theorem Orderly.mem_V_queue {pcb : π} {rest : List π} (orderly : sems.Orderly)
    (negative : (sems.sem s).value < 0) (queue : (sems.sem s).queue = pcb :: rest) :
    p ∈ ((sems.V s).sem other).queue ↔ p ∈ (sems.sem other).queue ∧ p ≠ pcb := by
  have nodup : (pcb :: rest).Nodup := queue ▸ orderly.nodup s
  rw [V_wake negative queue]
  by_cases same : other = s
  · subst same
    simp only [Function.update_self, queue, List.mem_cons]
    constructor
    · intro inside
      exact ⟨.inr inside, fun equal => (List.nodup_cons.mp nodup).1 (equal ▸ inside)⟩
    · rintro ⟨first | inside, different⟩
      · exact absurd first different
      · exact inside
  · simp only [Function.update_of_ne same]
    constructor
    · intro inside
      refine ⟨inside, fun equal => same ?_⟩
      exact orderly.unique pcb other s (equal ▸ inside) (by simp [queue])
    · exact And.left

theorem P_state : (sems.P s current).state =
    if 0 < (sems.sem s).value then sems.state
    else Function.update sems.state current .taskSleeping := by
  by_cases positive : 0 < (sems.sem s).value
  · rw [P_pass positive, if_pos positive]
  · rw [P_block (by omega), if_neg positive]

theorem Orderly.P (orderly : sems.Orderly) (awake : sems.state current ≠ .taskSleeping) :
    (sems.P s current).Orderly := by
  have absent : ∀ other, current ∉ (sems.sem other).queue := fun other => orderly.not_queued awake
  refine ⟨?_, ?_, ?_, ?_⟩
  · intro other
    have before := orderly.waiting other
    by_cases positive : 0 < (sems.sem s).value
    · rw [P_pass positive]
      by_cases same : other = s
      · subst same
        simp only [Function.update_self]
        omega
      · simpa [same] using before
    · rw [P_block (by omega)]
      by_cases same : other = s
      · subst same
        simp only [Function.update_self, List.length_append, List.length_cons, List.length_nil]
        omega
      · simpa [same] using before
  · intro other
    by_cases positive : 0 < (sems.sem s).value
    · rw [P_pass positive]
      by_cases same : other = s
      · subst same
        simpa using orderly.nodup other
      · simpa [same] using orderly.nodup other
    · rw [P_block (by omega)]
      by_cases same : other = s
      · subst same
        simp only [Function.update_self]
        exact List.nodup_append.mpr ⟨orderly.nodup other, by simp, by
          intro x inside y last
          have y_eq : y = current := by simpa using last
          exact fun equal => absent other (by rwa [← y_eq, ← equal])⟩
      · simpa [same] using orderly.nodup other
  · intro other p member
    rw [P_state]
    obtain inside | ⟨exhausted, _, rfl⟩ := mem_P_queue.mp member
    · have different : p ≠ current := fun equal => absent other (equal ▸ inside)
      split
      · exact orderly.asleep other p inside
      · simpa [different] using orderly.asleep other p inside
    · rw [if_neg (by omega)]
      simp
  · intro p first second inFirst inSecond
    obtain before | ⟨_, here, rfl⟩ := mem_P_queue.mp inFirst <;>
      obtain also | ⟨_, there, same⟩ := mem_P_queue.mp inSecond
    · exact orderly.unique p first second before also
    · exact absurd (same ▸ before) (absent first)
    · exact absurd also (absent second)
    · rw [here, there]

theorem Consistent.P (consistent : sems.Consistent) (awake : sems.state current ≠ .taskSleeping) :
    (sems.P s current).Consistent := by
  have orderly := consistent.orderly.P (s := s) awake
  refine ⟨orderly.waiting, orderly.nodup, ?_, orderly.unique⟩
  intro p
  constructor
  · intro sleeps
    rw [P_state] at sleeps
    split at sleeps
    · obtain ⟨other, member⟩ := (consistent.sleeping p).mp sleeps
      exact ⟨other, mem_P_queue.mpr (.inl member)⟩
    · next exhausted =>
        by_cases same : p = current
        · exact ⟨s, mem_P_queue.mpr (.inr ⟨by omega, rfl, same⟩)⟩
        · rw [Function.update_of_ne same] at sleeps
          obtain ⟨other, member⟩ := (consistent.sleeping p).mp sleeps
          exact ⟨other, mem_P_queue.mpr (.inl member)⟩
  · rintro ⟨other, member⟩
    exact orderly.asleep other p member

theorem Orderly.V (orderly : sems.Orderly) : (sems.V s).Orderly := by
  by_cases nonneg : 0 ≤ (sems.sem s).value
  · have queue : ∀ other, ((sems.V s).sem other).queue = (sems.sem other).queue := by
      intro other
      rw [V_free nonneg]
      by_cases here : other = s
      · subst here
        simp
      · simp [here]
    have state : (sems.V s).state = sems.state := by rw [V_free nonneg]
    refine ⟨?_, ?_, ?_, ?_⟩
    · intro other
      have before := orderly.waiting other
      rw [queue, V_value]
      split
      · next here => subst here; omega
      · omega
    · intro other
      rw [queue]
      exact orderly.nodup other
    · intro other p member
      rw [queue] at member
      rw [state]
      exact orderly.asleep other p member
    · intro p first second
      rw [queue, queue]
      exact orderly.unique p first second
  · have negative : (sems.sem s).value < 0 := by omega
    obtain ⟨pcb, rest, queue⟩ := orderly.queue_eq_cons negative
    refine ⟨?_, ?_, ?_, ?_⟩
    · intro other
      have before := orderly.waiting other
      rw [V_wake negative queue]
      by_cases same : other = s
      · subst same
        rw [queue, List.length_cons] at before
        simp only [Function.update_self]
        omega
      · simpa [same] using before
    · intro other
      exact (orderly.nodup other).sublist V_queue_sublist
    · intro other p member
      obtain ⟨inside, different⟩ := (orderly.mem_V_queue negative queue).mp member
      rw [V_wake negative queue]
      simpa [different] using orderly.asleep other p inside
    · intro p first second inFirst inSecond
      exact orderly.unique p first second (V_queue_sublist.subset inFirst)
        (V_queue_sublist.subset inSecond)

theorem Consistent.V (consistent : sems.Consistent) : (sems.V s).Consistent := by
  have orderly := consistent.orderly.V (s := s)
  refine ⟨orderly.waiting, orderly.nodup, ?_, orderly.unique⟩
  intro p
  constructor
  · intro sleeps
    by_cases nonneg : 0 ≤ (sems.sem s).value
    · rw [V_free nonneg] at sleeps
      obtain ⟨other, member⟩ := (consistent.sleeping p).mp sleeps
      refine ⟨other, ?_⟩
      rw [V_free nonneg]
      by_cases here : other = s
      · subst here
        simpa using member
      · simpa [here] using member
    · have negative : (sems.sem s).value < 0 := by omega
      obtain ⟨pcb, rest, queue⟩ := consistent.queue_eq_cons negative
      rw [V_wake negative queue] at sleeps
      by_cases same : p = pcb
      · simp [same] at sleeps
      · obtain ⟨other, member⟩ := (consistent.sleeping p).mp (by simpa [same] using sleeps)
        exact ⟨other, (consistent.orderly.mem_V_queue negative queue).mpr ⟨member, same⟩⟩
  · rintro ⟨other, member⟩
    exact orderly.asleep other p member

end Operations

end Sems

end WindOs.Sync
