import Mathlib.Data.Fintype.Card
import WindOs.Data.Machine
import WindOs.Data.Walk
import WindOs.List
import WindOs.Sync.Semaphore

namespace WindOs.Sched

open Data Sync

universe u v

/-! # semaphore.c and sched.c over the nodes in memory

A process has two list nodes: `node` is on `proc_list` and
`semaphore_test_node` is on the queue of the semaphore it sleeps on.
-/

/-- The nodes of the wait queues: the `queue` sentinel of a semaphore and the
`semaphore_test_node` of a process. -/
inductive QueueNode (σ : Type u) (π : Type v) where
  | queue (s : σ)
  | testNode (p : π)
deriving DecidableEq

/-- The nodes of the process list: `proc_list` and the `node` of a process. -/
inductive ProcNode (π : Type v) where
  | procList
  | node (p : π)
deriving DecidableEq

/-- A `struct pcb_t *`: `idle`, which is on no list, or a process of `proc_list`. -/
inductive Task (π : Type v) where
  | idle
  | pcb (p : π)
deriving DecidableEq

/-- `current` is `none` while it is `NULL`, before `proc_init`. -/
structure Kernel (σ : Type u) (π : Type v) where
  value : σ → Int
  queues : Links (QueueNode σ π)
  procs : Links (ProcNode π)
  state : π → ProcLifecircle
  current : Option (Task π)

namespace Kernel

variable {σ : Type u} {π : Type v} [DecidableEq σ] [DecidableEq π]

def runThread (kernel : Kernel σ π) (task : Task π) : Kernel σ π :=
  { kernel with current := some task }

/-- One round of the search for a process to run; the accumulator is `target_pcb`. -/
def visitProc (kernel : Kernel σ π) : ProcNode π → Option π → Option π ⊕ Option π
  | .procList, target => .inl target
  | .node p, _ => if kernel.state p = .taskRunnable then .inr (some p) else .inl (some p)

def begin : Task π → ProcNode π
  | .idle => .procList
  | .pcb p => .node p

/-- `none` says that the search did not end within `fuel` rounds. -/
def schedule (fuel : Nat) (kernel : Kernel σ π) : Option (Kernel σ π) :=
  match kernel.current with
  | none => some kernel
  | some task =>
      (loop (walk kernel.procs (begin task) kernel.visitProc id) fuel
        (kernel.procs.next (begin task), none)).map fun target =>
          match target with
          | some pcb =>
              if kernel.state pcb = .taskRunnable then kernel.runThread (.pcb pcb)
              else kernel.runThread .idle
          | none => kernel.runThread .idle

/-- `P(s)` by the current process; `idle` never calls it. -/
def P (fuel : Nat) (kernel : Kernel σ π) (s : σ) : Option (Kernel σ π) :=
  match kernel.current with
  | some (.pcb current) =>
      let value := kernel.value s - 1
      let kernel := { kernel with value := Function.update kernel.value s value }
      if value < 0 then
        let kernel := { kernel with
          queues := listInsertBefore kernel.queues (.queue s) (.testNode current)
          state := Function.update kernel.state current .taskSleeping }
        kernel.schedule fuel
      else some kernel
  | _ => none

/-- `none` says that the sentinel of the queue was taken for the node of a PCB. -/
def V (kernel : Kernel σ π) (s : σ) : Option (Kernel σ π) :=
  let value := kernel.value s + 1
  let kernel := { kernel with value := Function.update kernel.value s value }
  if value ≤ 0 then
    match kernel.queues.next (.queue s) with
    | .queue _ => none
    | .testNode pcb =>
        let kernel := { kernel with state := Function.update kernel.state pcb .taskRunnable }
        if kernel.queues.next (.queue s) ≠ .queue s then
          some { kernel with queues := listDelete kernel.queues (kernel.queues.next (.queue s)) }
        else some kernel
  else some kernel

/-- The current process calls `P` or `V`, or the timer interrupts it. -/
inductive Op (σ : Type u) where
  | P (s : σ)
  | V (s : σ)
  | timer
deriving DecidableEq

def step (fuel : Nat) (kernel : Kernel σ π) : Op σ → Option (Kernel σ π)
  | .P s => kernel.P fuel s
  | .V s => kernel.V s
  | .timer => kernel.schedule fuel

/-- Every semaphore is fresh from `semaphore_init`, all processes are on
`proc_list`, and none of them sleeps. -/
structure Initial (kernel : Kernel σ π) : Prop where
  empty : ∀ s, kernel.queues.IsRing (.queue s) []
  nonneg : ∀ s, 0 ≤ kernel.value s
  awake : ∀ p, kernel.state p ≠ .taskSleeping
  procList : ∃ procs : List π, (∀ p, p ∈ procs) ∧
    kernel.procs.IsRing .procList (procs.map .node)

/-- One round more than there are nodes on `proc_list` is enough for every search. -/
def machine (σ : Type u) (π : Type v) [DecidableEq σ] [DecidableEq π] [Fintype π] :
    Machine (Kernel σ π) (Op σ) where
  start := Initial
  step := step (Fintype.card π + 1)

structure Represents (kernel : Kernel σ π) (sems : Sems σ π) (procs : List π) : Prop where
  value : ∀ s, kernel.value s = (sems.sem s).value
  state : kernel.state = sems.state
  queue : ∀ s, kernel.queues.IsRing (.queue s) ((sems.sem s).queue.map .testNode)
  procList : kernel.procs.IsRing .procList (procs.map .node)

/-- What `schedule` may leave in `current`. -/
def Switched (kernel : Kernel σ π) : Prop :=
  kernel.current = some .idle ∨
    ∃ p, kernel.current = some (.pcb p) ∧ kernel.state p = .taskRunnable

variable {kernel after : Kernel σ π} {sems : Sems σ π} {procs : List π} {fuel : Nat} {s : σ} {p : π}

/-- The processes of `proc_list` in the order in which a search from `task` meets them. -/
def order (procs : List π) : Task π → List π
  | .idle => procs
  | .pcb p => (procs.dropWhile (· ≠ p)).tail ++ procs.takeWhile (· ≠ p)

/-- The first runnable process of the search, or `idle`. -/
def selected (state : π → ProcLifecircle) (procs : List π) (task : Task π) : Task π :=
  match (order procs task).find? (state · = .taskRunnable) with
  | some pcb => .pcb pcb
  | none => .idle

/-- `idle` is on no list. -/
def OnList (procs : List π) (task : Task π) : Prop :=
  ∀ p, task = .pcb p → p ∈ procs

theorem order_split {front back : List π} (outside : p ∉ front) :
    order (front ++ p :: back) (.pcb p) = back ++ front := by
  have clear : ∀ q ∈ front, decide (q ≠ p) = true := by
    intro q member
    have different : q ≠ p := fun same => outside (same ▸ member)
    simpa using different
  simp only [order, List.dropWhile_append_of_pos clear, List.takeWhile_append_of_pos clear]
  simp

theorem order_subset {task : Task π} {q : π} (member : q ∈ order procs task) : q ∈ procs := by
  cases task with
  | idle => exact member
  | pcb r =>
      simp only [order, List.mem_append] at member
      obtain behind | before := member
      · exact (List.dropWhile_sublist _).subset (List.mem_of_mem_tail behind)
      · exact (List.takeWhile_sublist _).subset before

theorem selected_onList {state : π → ProcLifecircle} {task : Task π} :
    OnList procs (selected state procs task) := by
  intro q chosen
  unfold selected at chosen
  split at chosen
  · next pcb first =>
      cases chosen
      exact order_subset (List.mem_of_find?_eq_some first)
  · contradiction

/-- The processes among the nodes of a ring. -/
def visited (nodes : List (ProcNode π)) : List π :=
  nodes.filterMap fun
    | .procList => none
    | .node p => some p

omit [DecidableEq π] in
theorem visited_node (procs : List π) : visited (procs.map .node) = procs := by
  simp [visited, List.filterMap_map]

omit [DecidableEq σ] [DecidableEq π] in
/-- The search visits the processes in order and stops at the first runnable one;
otherwise it leaves the last process it inspected. -/
theorem scan_visitProc (nodes : List (ProcNode π)) (target : Option π) :
    scan kernel.visitProc id nodes target =
      ((visited nodes).find? (kernel.state · = .taskRunnable)).or
        ((visited nodes).getLast?.or target) := by
  induction nodes generalizing target with
  | nil => rfl
  | cons node nodes ih =>
      cases node with
      | procList =>
          simpa only [scan, visitProc, visited, List.filterMap_cons] using ih target
      | node p =>
          have visits : visited (.node p :: nodes) = p :: visited nodes := rfl
          by_cases runnable : kernel.state p = .taskRunnable
          · simp [scan, visitProc, visits, runnable]
          · simp only [scan, visitProc, visits, if_neg runnable, ih, List.find?_cons,
              decide_eq_false runnable, List.getLast?_cons]
            cases last : (visited nodes).getLast? with
            | none => simp_all
            | some q => simp_all

omit [DecidableEq σ] in
theorem schedule_eq {task : Task π} (ring : kernel.procs.IsRing .procList (procs.map .node))
    (running : kernel.current = some task) (member : OnList procs task)
    (enough : procs.length < fuel) :
    kernel.schedule fuel = some (kernel.runThread (selected kernel.state procs task)) := by
  have round : ∃ nodes, kernel.procs.IsRing (begin task) nodes ∧ nodes.length < fuel ∧
      visited nodes = order procs task := by
    cases task with
    | idle => exact ⟨_, ring, by simpa using enough, by simp [visited_node, order]⟩
    | pcb p =>
        obtain ⟨front, back, split, outside⟩ := List.eq_append_cons_of_mem (member p rfl)
        rw [split, List.map_append, List.map_cons] at ring
        refine ⟨_, ring.rotate, ?_, ?_⟩
        · rw [split] at enough
          simp only [List.length_append, List.length_cons, List.length_map] at enough ⊢
          omega
        · rw [split, order_split outside]
          simp [visited, List.filterMap_append, List.filterMap_map]
  obtain ⟨nodes, ring, short, visits⟩ := round
  have found := @loop_walk_ring _ _ _ _ _ kernel.visitProc id _ _ ring none _ short
  rw [scan_visitProc, visits] at found
  simp only [schedule, running, found, Option.map_some, selected]
  cases first : (order procs task).find? (kernel.state · = .taskRunnable) with
  | some pcb =>
      have runnable : kernel.state pcb = .taskRunnable := by
        simpa using List.find?_some first
      simp [runnable]
  | none =>
      cases last : (order procs task).getLast? with
      | none => simp
      | some pcb =>
          have idles : kernel.state pcb ≠ .taskRunnable := by
            simpa using List.find?_eq_none.mp first pcb (List.mem_of_getLast? last)
          simp [idles]

omit [DecidableEq σ] [DecidableEq π] in
theorem Switched.runnable (switched : kernel.Switched) (running : kernel.current = some (.pcb p)) :
    kernel.state p = .taskRunnable := by
  obtain idle | ⟨q, other, runnable⟩ := switched
  · rw [idle] at running
    cases running
  · rw [other] at running
    cases running
    exact runnable

omit [DecidableEq σ] [DecidableEq π] in
theorem Switched.awake (switched : kernel.Switched) (running : kernel.current = some (.pcb p)) :
    kernel.state p ≠ .taskSleeping := by
  simp [switched.runnable running]

omit [DecidableEq σ] in
theorem schedule_spec (ring : kernel.procs.IsRing .procList (procs.map .node))
    (listed : ∀ task, kernel.current = some task → OnList procs task)
    (enough : procs.length < fuel) :
    ∃ current, kernel.schedule fuel = some { kernel with current } ∧
      (kernel.current = none ∧ current = none ∨ Switched { kernel with current }) ∧
      ∀ task, current = some task → OnList procs task := by
  cases running : kernel.current with
  | none =>
      refine ⟨none, ?_, .inl ⟨rfl, rfl⟩, by simp⟩
      simp only [schedule, running]
      rw [← running]
  | some task =>
      refine ⟨_, schedule_eq ring running (listed task running) enough, .inr ?_, ?_⟩
      · unfold selected
        split
        · next pcb first => exact .inr ⟨pcb, rfl, by simpa using List.find?_some first⟩
        · exact .inl rfl
      · intro task chosen
        cases chosen
        exact selected_onList

omit [DecidableEq σ] in
/-- What `schedule` does, it does with any amount of fuel. -/
theorem schedule_unique {more : Nat} {again : Kernel σ π} (ended : kernel.schedule fuel = some after)
    (endedAgain : kernel.schedule more = some again) : after = again := by
  cases running : kernel.current with
  | none =>
      simp only [schedule, running] at ended endedAgain
      exact (Option.some.inj ended).symm.trans (Option.some.inj endedAgain)
  | some task =>
      simp only [schedule, running] at ended endedAgain
      obtain ⟨target, found, rfl⟩ := Option.map_eq_some_iff.mp ended
      obtain ⟨other, foundAgain, rfl⟩ := Option.map_eq_some_iff.mp endedAgain
      rw [loop_unique found foundAgain]

theorem P_unique {more : Nat} {again : Kernel σ π} (running : kernel.current = some (.pcb p))
    (ended : kernel.P fuel s = some after) (endedAgain : kernel.P more s = some again) :
    after = again := by
  simp only [P, running] at ended endedAgain
  by_cases short : kernel.value s - 1 < 0
  · rw [if_pos short] at ended endedAgain
    exact schedule_unique ended endedAgain
  · rw [if_neg short] at ended endedAgain
    exact (Option.some.inj ended).symm.trans (Option.some.inj endedAgain)

/-- Joining one queue leaves the rings of the other queues alone. -/
theorem Represents.enqueue (represents : kernel.Represents sems procs)
    (orderly : sems.Orderly) (awake : sems.state p ≠ .taskSleeping) (other : σ) :
    (listInsertBefore kernel.queues (.queue s) (.testNode p)).IsRing (.queue other)
      ((if other = s then (sems.sem s).queue ++ [p] else (sems.sem other).queue).map .testNode) := by
  have absent : ∀ t, p ∉ (sems.sem t).queue := fun t => orderly.not_queued awake
  by_cases same : other = s
  · subst same
    rw [if_pos rfl, List.map_append]
    exact listInsertBefore_head_ring (represents.queue other) (by simpa using absent other)
  · rw [if_neg same, listInsertBefore_eq_splice (by simp)]
    apply (represents.queue other).splice_frame
    · simpa using absent other
    · rw [(represents.queue s).prev_head]
      cases last : (sems.sem s).queue.getLast? with
      | none => simp_all [List.getLast?_eq_none_iff, Ne.symm same]
      | some q =>
          have member : q ∈ (sems.sem s).queue := List.mem_of_getLast? last
          have elsewhere : q ∉ (sems.sem other).queue := fun inside =>
            same (orderly.unique q other s inside member)
          simpa [List.getLastD_eq_getLast?, last] using elsewhere
    · simp [Ne.symm same]

/-- Taking the first process off one queue leaves the rings of the other queues alone. -/
theorem Represents.dequeue {rest : List π} (represents : kernel.Represents sems procs)
    (orderly : sems.Orderly) (queue : (sems.sem s).queue = p :: rest) (other : σ) :
    (listDelete kernel.queues (.testNode p)).IsRing (.queue other)
      ((if other = s then rest else (sems.sem other).queue).map .testNode) := by
  have ring := represents.queue s
  rw [queue, List.map_cons] at ring
  by_cases same : other = s
  · subst same
    rw [if_pos rfl]
    exact @listDelete_ring _ _ _ _ _ [] _ ring
  · rw [if_neg same, listDelete_eq_unlink]
    apply (represents.queue other).unlink_frame
    · rw [@Links.IsRing.prev_member _ _ _ _ [] _ ring]
      simp [Ne.symm same]
    · rw [@Links.IsRing.next_member _ _ _ _ [] _ ring]
      cases rest with
      | nil => simp [Ne.symm same]
      | cons q rest =>
          have member : q ∈ (sems.sem s).queue := by simp [queue]
          have elsewhere : q ∉ (sems.sem other).queue := fun inside =>
            same (orderly.unique q other s inside member)
          simpa using elsewhere

omit [DecidableEq π] in
/-- One semaphore changes, in memory and in the family alike. -/
theorem Represents.update {value : Int} {queue : List π} {queues : Links (QueueNode σ π)}
    {state : π → ProcLifecircle} {current : Option (Task π)}
    (represents : kernel.Represents sems procs)
    (rings : ∀ other, queues.IsRing (.queue other)
      ((if other = s then queue else (sems.sem other).queue).map .testNode)) :
    Represents { kernel with value := Function.update kernel.value s value, queues, state, current }
      { sem := Function.update sems.sem s { value, queue }, state } procs := by
  refine ⟨?_, rfl, ?_, represents.procList⟩
  · intro other
    by_cases same : other = s
    · subst same
      simp
    · simp [same, represents.value other]
  · intro other
    have ring := rings other
    by_cases same : other = s
    · subst same
      simpa using ring
    · simpa [same] using ring

omit [DecidableEq π] in
theorem Represents.revalue {value : Int} (represents : kernel.Represents sems procs) :
    Represents { kernel with value := Function.update kernel.value s value }
      { sems with sem := Function.update sems.sem s { value, queue := (sems.sem s).queue } }
        procs := by
  rw [← represents.state]
  apply represents.update
  intro other
  by_cases same : other = s
  · subst same
    simpa using represents.queue other
  · simpa [same] using represents.queue other

/-- `P` by an awake process always returns to the scheduler or to its caller. -/
theorem P_refines (represents : kernel.Represents sems procs) (orderly : sems.Orderly)
    (member : p ∈ procs) (enough : procs.length < fuel)
    (running : kernel.current = some (.pcb p)) (awake : sems.state p ≠ .taskSleeping) :
    ∃ after, kernel.P fuel s = some after ∧ after.Represents (sems.P s p) procs ∧
      (if 0 < kernel.value s then after.current = kernel.current else after.Switched) ∧
      ∀ task, after.current = some task → OnList procs task := by
  have value := represents.value s
  have listed : OnList procs (.pcb p) := by
    intro q same
    cases same
    exact member
  by_cases positive : 0 < kernel.value s
  · have enough : ¬ kernel.value s - 1 < 0 := by omega
    have passes : kernel.P fuel s =
        some { kernel with value := Function.update kernel.value s (kernel.value s - 1) } := by
      simp only [P, running, if_neg enough]
    refine ⟨_, passes, ?_, by rw [if_pos positive], ?_⟩
    · rw [Sems.P_pass (by omega), value]
      exact represents.revalue
    · intro task same
      cases running.symm.trans same
      exact listed
  · have short : kernel.value s - 1 < 0 := by omega
    obtain ⟨current, scheduled, switched, onList⟩ := @schedule_spec _ _ _
      { kernel with
        value := Function.update kernel.value s (kernel.value s - 1)
        queues := listInsertBefore kernel.queues (.queue s) (.testNode p)
        state := Function.update kernel.state p .taskSleeping } _ _ represents.procList
      (by intro task same; cases running.symm.trans same; exact listed) enough
    have blocks := scheduled
    simp only [running] at blocks
    refine ⟨_, by simp only [P, running, if_pos short]; exact blocks, ?_, ?_, onList⟩
    · rw [Sems.P_block (by omega), value, represents.state]
      exact represents.update (represents.enqueue orderly awake)
    · rw [if_neg positive]
      obtain ⟨nobody, _⟩ | switched := switched
      · rw [running] at nobody
        contradiction
      · exact switched

/-- `V` never meets the sentinel, and wakes the process that the sentinel points to. -/
theorem V_refines (represents : kernel.Represents sems procs) (orderly : sems.Orderly) :
    ∃ after, kernel.V s = some after ∧ after.Represents (sems.V s) procs ∧
      after.current = kernel.current := by
  have value := represents.value s
  by_cases nonneg : 0 ≤ kernel.value s
  · have positive : ¬ kernel.value s + 1 ≤ 0 := by omega
    have free : kernel.V s =
        some { kernel with value := Function.update kernel.value s (kernel.value s + 1) } := by
      simp only [V, if_neg positive]
    refine ⟨_, free, ?_, rfl⟩
    rw [Sems.V_free (by omega), value]
    exact represents.revalue
  · have still : kernel.value s + 1 ≤ 0 := by omega
    obtain ⟨pcb, rest, queue⟩ := orderly.queue_eq_cons (show (sems.sem s).value < 0 by omega)
    have first : kernel.queues.next (.queue s) = .testNode pcb := by
      rw [(represents.queue s).next_head, queue]
      rfl
    have wakes : kernel.V s = some { kernel with
        value := Function.update kernel.value s (kernel.value s + 1)
        queues := listDelete kernel.queues (.testNode pcb)
        state := Function.update kernel.state pcb .taskRunnable } := by
      simp [V, still, first]
    refine ⟨_, wakes, ?_, rfl⟩
    rw [Sems.V_wake (by omega) queue, value, represents.state]
    exact represents.update (represents.dequeue orderly queue)

end Kernel

end WindOs.Sched
