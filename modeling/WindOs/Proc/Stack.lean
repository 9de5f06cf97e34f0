import WindOs.Mm.DeleteMm
import WindOs.Proc.NullPointers
import WindOs.Proc.Zombie

namespace WindOs.Proc

open Data Sync Sched Mm

universe u

/-! # Kernel stacks

A stack is remembered by the address 4 bytes below its end, and that is what
`recycle_child` takes two pages from.
-/

namespace ProcTable

variable {π : Type u} [DecidableEq π] {table after : ProcTable π} {p c pcb : π} {current : Option π}
  {fuel : Nat}

/-- `do_fork` with the offset that it passes to `set_kthread_stack`: unless that is 0, the
address of `exit_proc` is stored at the end of the stack. -/
def doForkAt (table : ProcTable π) (current chunk : Option π) (stack : Option Nat)
    (stackOffset exitProc : Nat) : (Int × ProcTable π) × Option (Nat × Nat) :=
  (table.doFork current chunk stack,
    stack.bind fun pages => if stackOffset ≠ 0 then
      some ((pages + 4096 * kthreadStackPage + 2 ^ 32 - 4) % 2 ^ 32, exitProc) else none)

/-- No PCB has another stack. -/
def SameStacks (table after : ProcTable π) : Prop :=
  ∀ p, (after.pcb p).startStack = (table.pcb p).startStack

theorem Rewired.stacks (rewired : Rewired table after) : SameStacks table after :=
  fun p => (rewired.kept p).2

theorem enlist_stacks : SameStacks table (table.enlist pcb current) :=
  fun p => (enlist_kept p).2

/-- A process that was created has the stack that was allocated for it. -/
theorem doFork_stack {stack : Nat}
    (created : (table.doFork current (some c) (some stack)).1 ≠ -1) :
    ((table.doFork current (some c) (some stack)).2.pcb (some c)).startStack =
        (stack + 4096 * kthreadStackPage + 2 ^ 32 - 4) % 2 ^ 32 ∧
      (table.doFork current (some c) (some stack)).2.allocated c = true := by
  by_cases full : table.procNum > maxProcess
  · simp only [doFork, if_pos full] at created
    exact absurd rfl created
  · simp only [doFork, if_neg full, setKthreadStack, Option.map_some] at created ⊢
    split at created
    · exact absurd rfl created
    · rename_i numbered
      rw [if_neg numbered]
      constructor
      · rw [enlist_stacks]
        simp only [edit, Function.update_self]
        cases found : clearBit table.pids <;> simp [getPid, createPcb, edit, found]
      · cases found : clearBit table.pids <;>
          simp [enlist, addLinks, wakeupProcess, setParent, edit, getPid, createPcb, found]

theorem doFork_pid {stack : Nat}
    (created : (table.doFork current (some c) (some stack)).1 ≠ -1) :
    ((table.doFork current (some c) (some stack)).2.pcb (some c)).pid =
      (table.doFork current (some c) (some stack)).1 := by
  by_cases full : table.procNum > maxProcess
  · simp only [doFork, if_pos full] at created
    exact absurd rfl created
  · simp only [doFork, if_neg full, setKthreadStack, Option.map_some] at created ⊢
    split at created
    · exact absurd rfl created
    · rename_i numbered
      rw [if_neg numbered]

/-- What keeps a process until it is reaped. -/
structure Stacked (table : ProcTable π) (c : π) (startStack : Nat) : Prop where
  allocated : table.allocated c = true
  stack : (table.pcb (some c)).startStack = startStack

theorem Stacked.step {op : FamilyOp π} {startStack : Nat} (stacked : table.Stacked c startStack)
    (kept : op ≠ .recycle c) (moved : table.bootedStep op = some after) :
    after.Stacked c startStack := by
  cases op with
  | fork p chunk stack =>
      simp only [bootedStep] at moved
      split at moved
      · rename_i allowed
        cases moved
        have fresh : ∀ pcb, chunk = some pcb → table.allocated pcb = false := by
          rintro pcb rfl
          simpa using allowed.2
        have other : ∀ pcb, chunk = some pcb → c ≠ pcb := by
          rintro pcb given rfl
          have live := stacked.allocated
          rw [fresh c given] at live
          cases live
        rcases @doFork_cases _ _ table (some p) chunk stack fresh with
          ⟨-, untouched⟩ | ⟨pcb, i, j, numbered, given, details, result, -⟩
        · refine ⟨by rw [untouched.allocated]; exact stacked.allocated, ?_⟩
          rw [untouched.pcb c (fun given => other c given rfl)]
          exact stacked.stack
        · have different : some c ≠ some pcb := fun same => other pcb given (Option.some.inj same)
          rw [result]
          refine ⟨?_, ?_⟩
          · show numbered.allocated c = true
            rw [details.allocated, Function.update_of_ne (other pcb given)]
            exact stacked.allocated
          · rw [enlist_stacks, details.others _ different]
            exact stacked.stack
      · cases moved
  | exit p fuel =>
      simp only [bootedStep] at moved
      split at moved
      · refine ⟨by rw [(Rewired.doExit moved).books.allocated]; exact stacked.allocated, ?_⟩
        rw [(Rewired.doExit moved).stacks]
        exact stacked.stack
      · cases moved
  | recycle child =>
      have different : c ≠ child := by
        rintro rfl
        exact kept rfl
      simp only [bootedStep] at moved
      split at moved
      · cases moved
        refine ⟨?_, ?_⟩
        · rw [recycleChild_allocated, Function.update_of_ne different]
          exact stacked.allocated
        · exact (Rewired.removeLinks.stacks (some c)).trans stacked.stack
      · cases moved

theorem Stacked.run {labels : List (FamilyOp π)} {startStack : Nat} (stacked : table.Stacked c startStack)
    (kept : .recycle c ∉ labels) (ran : (bootedMachine π).run table labels = some after) :
    after.Stacked c startStack := by
  induction labels generalizing table with
  | nil =>
      cases ran
      exact stacked
  | cons op labels ih =>
      obtain ⟨next, moved, rest⟩ := Option.bind_eq_some_iff.mp ran
      rw [List.mem_cons, not_or] at kept
      exact ih (stacked.step (Ne.symm kept.1) moved) kept.2 rest

/-- The pages that the latest call of `free_page` for a stack was given. -/
def releasedPages (pg : Paging) (table : ProcTable π) : List Nat :=
  match table.released with
  | la :: _ => List.range' (pg.laAddrToPg la) kthreadStackPage
  | [] => []

theorem recycleChild_released {startStack : Nat} (stacked : table.Stacked c startStack) :
    (table.recycleChild c).released =
      ((startStack + 2 ^ 32 - 4096 * kthreadStackPage) % 2 ^ 32) :: table.released := by
  have stack : ((table.removeLinks (some c)).pcb (some c)).startStack = startStack :=
    (Rewired.removeLinks.stacks (some c)).trans stacked.stack
  have before : (table.removeLinks (some c)).released = table.released := by
    simp only [removeLinks, editUnlessNull]
    split <;> split <;> rfl
  simp only [recycleChild, freeStack, free, stack, before]

/-- The address lies in the page below the stack. -/
theorem laAddrToPg_below {pg : Paging} {page : Nat} :
    pg.laAddrToPg (((Paging.pgToAddrLa page + 4096 * kthreadStackPage + 2 ^ 32 - 4) % 2 ^ 32 +
      2 ^ 32 - 4096 * kthreadStackPage) % 2 ^ 32) ≠ page := by
  simp only [Paging.laAddrToPg, Paging.pgToAddrLa, kthreadStackPage, pageSize, vertualMem]
  omega

theorem first_of_pages {a b : Nat}
    (same : List.range' a kthreadStackPage = List.range' b kthreadStackPage) : a = b :=
  (List.cons.inj same).1

/-- Whatever pages a process got for its stack, others are given back when it is reaped. -/
theorem stack_not_given_back {pg : Paging} {page stackOffset exitProc : Nat}
    {labels : List (FamilyOp π)}
    (created : (table.doForkAt (some p) (some c) (some (Paging.pgToAddrLa page)) stackOffset
      exitProc).1.1 ≠ -1)
    (ran : (bootedMachine π).run (table.doForkAt (some p) (some c) (some (Paging.pgToAddrLa page))
      stackOffset exitProc).1.2 labels = some after)
    (kept : .recycle c ∉ labels) :
    (after.recycleChild c).releasedPages pg ≠ List.range' page kthreadStackPage := by
  obtain ⟨stack, allocated⟩ := doFork_stack created
  have stacked := (Stacked.mk allocated stack).run kept ran
  rw [releasedPages, recycleChild_released stacked]
  intro same
  exact laAddrToPg_below (first_of_pages same)

/-- The kernel has booted, and its first process got the pages 20 and 21. -/
def firstStacked (stackOffset : Nat) : (Int × ProcTable Nat) × Option (Nat × Nat) :=
  (blank.procInit 0 0).doForkAt (some 0) (some 1) (some (Paging.pgToAddrLa 20)) stackOffset 0xC0100000

/-- It exits and is reaped. -/
theorem stack_not_given_back_first :
    ∃ after, (bootedMachine Nat).run (firstStacked 0).1.2 [.exit 1 1] = some after ∧
      (after.recycleChild 1).releasedPages VmState.fourFrames.pg ≠ List.range' 20 kthreadStackPage := by
  have runs : ((bootedMachine Nat).run (firstStacked 0).1.2 [.exit 1 1]).isSome := by decide +kernel
  obtain ⟨after, ran⟩ := Option.isSome_iff_exists.mp runs
  exact ⟨after, ran, stack_not_given_back (by decide +kernel) ran (by simp)⟩

/-- The page below its stack is given back, which it never had. -/
theorem page_below_given_back :
    ∃ after, (firstStacked 4).1.1 = 1 ∧
      (bootedMachine Nat).run (firstStacked 4).1.2 [.exit 1 1] = some after ∧
      (after.recycleChild 1).releasedPages VmState.fourFrames.pg = [19, 20] ∧
      (after.recycleChild 1).releasedPages VmState.fourFrames.pg ≠ List.range' 20 kthreadStackPage := by
  have runs : ((bootedMachine Nat).run (firstStacked 4).1.2 [.exit 1 1]).any fun after =>
      (after.recycleChild 1).releasedPages VmState.fourFrames.pg = [19, 20] := by
    decide +kernel
  obtain ⟨after, ran, pages⟩ := (Option.any_eq_true _ _).mp runs
  have pages := of_decide_eq_true pages
  refine ⟨after, by decide +kernel, ran, pages, ?_⟩
  rw [pages]
  decide

end ProcTable

end WindOs.Proc
