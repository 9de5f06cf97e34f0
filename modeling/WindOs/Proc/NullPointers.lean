import WindOs.Proc.Family

namespace WindOs.Proc

open Data Sync Sched

universe u

/-! # Family pointers that are NULL

Each function of the family tree has a companion that lists the family pointers
it goes through, each with the value it has at that moment.
-/

namespace ProcTable

variable {π : Type u} [DecidableEq π]

/-- `pcb->parent->cptr`, once read and once written, and `pcb->optr->yptr`. -/
def addLinksPointers (table : ProcTable π) (pcb : Option π) : List (Option π) :=
  let linked := table.edit pcb fun child => { child with optr := (table.pcb child.parent).cptr }
  let youngest := linked.edit (linked.pcb pcb).parent fun parent => { parent with cptr := pcb }
  [(table.pcb pcb).parent, (linked.pcb pcb).parent, (youngest.pcb pcb).optr]

def enlistPointers (table : ProcTable π) (pcb : π) (current : Option π) : List (Option π) :=
  let table := table.setParent (some pcb) current
  let table := { table with
    procs := listInsertAfter table.procs .procList (.node pcb)
    procNum := table.procNum + 1 }
  table.addLinksPointers (some pcb)

def doForkPointers (table : ProcTable π) (current : Option π) (chunk : Option π)
    (stack : Option Nat) : List (Option π) :=
  if table.procNum > maxProcess then []
  else match chunk with
    | none => []
    | some pcb =>
        match (table.createPcb pcb).setKthreadStack pcb stack with
        | none => []
        | some table =>
            let (pid, table) := table.getPid
            let table := table.edit (some pcb) fun child => { child with pid }
            if pid = -1 then [] else table.enlistPointers pcb current

/-- Behind its test for `NULL`. -/
def unlessNull (ptr : Option π) : List (Option π) :=
  if ptr ≠ none then [ptr] else []

def removeLinksPointers (table : ProcTable π) (child : Option π) : List (Option π) :=
  let younger := (table.pcb child).yptr
  let table' :=
    if younger ≠ none then table.edit younger fun y => { y with optr := (table.pcb child).optr }
    else table.edit (table.pcb child).parent fun p => { p with cptr := (table.pcb child).optr }
  (if younger ≠ none then [younger] else [(table.pcb child).parent]) ++
    unlessNull (table'.pcb child).optr

/-- `child->optr->yptr` in the first half of a round and `init_proc` in the second. -/
def handOverPointers (table : ProcTable π) (current child : Option π) : List (Option π) :=
  let shortened := table.edit current fun pcb => { pcb with cptr := (table.pcb child).optr }
  let shortened := shortened.edit child fun pcb => { pcb with yptr := none }
  let detached := table.detach current child
  let moved := detached.edit child fun pcb =>
    { pcb with optr := (detached.pcb detached.initProc).cptr }
  [(shortened.pcb child).optr, table.initProc] ++ unlessNull (moved.pcb moved.initProc).cptr

def roundsPointers : Nat → ProcTable π → Option π → List (Option π)
  | 0, _, _ => []
  | fuel + 1, table, current =>
      if (table.pcb current).cptr ≠ none then
        table.handOverPointers current (table.pcb current).cptr ++
          roundsPointers fuel (table.handOver current (table.pcb current).cptr) current
      else []

def sendChldToInitPointers (fuel : Nat) (table : ProcTable π) (current : Option π) :
    List (Option π) :=
  let parent := (table.pcb current).parent
  let table :=
    if (table.pcb parent).waitstate = .wtChild then table.wakeupProcess parent else table
  parent :: roundsPointers fuel table current

/-- The family pointers that an operation goes through. -/
def pointers (table : ProcTable π) : FamilyOp π → List (Option π)
  | .fork p chunk stack => table.doForkPointers (some p) chunk stack
  | .exit p fuel =>
      (table.edit (some p) fun pcb => { pcb with state := .taskZombie }).sendChldToInitPointers
        fuel (some p)
  | .recycle child => table.removeLinksPointers (some child)

/-- Any process may fork or exit, and any zombie may be reaped. -/
def bootedStep (table : ProcTable π) : FamilyOp π → Option (ProcTable π)
  | .fork p chunk stack =>
      if table.Alive p ∧ chunk.all (fun pcb => !table.allocated pcb) then
        some (table.doFork (some p) chunk stack).2
      else none
  | .exit p fuel => if table.Alive p then table.doExit fuel (some p) else none
  | .recycle child =>
      if table.allocated child ∧ (table.pcb (some child)).state = .taskZombie then
        some (table.recycleChild child)
      else none

/-- The kernel as it boots: `proc_init` leaves `init_proc` alone, and nobody else sets it. -/
def bootedMachine (π : Type u) [DecidableEq π] : Machine (ProcTable π) (FamilyOp π) where
  start table := ∃ (unbooted : ProcTable π) (idle : π) (kernStack : Nat),
    unbooted.Unbooted ∧ table = unbooted.procInit idle kernStack
  step := bootedStep

variable {table after : ProcTable π} {p pcb idle : π} {chunk : Option π} {stack : Option Nat}
  {fuel : Nat}

/-- A fork that goes through finds its caller as the parent and the caller's
youngest child as the older sibling. -/
theorem doForkPointers_eq (room : table.procNum ≤ maxProcess) (given : chunk = some pcb)
    (stacked : stack ≠ none) (numbered : clearBit table.pids ≠ none) (other : p ≠ pcb) :
    table.doForkPointers (some p) chunk stack =
      [some p, some p, (table.pcb (some p)).cptr] := by
  obtain ⟨pages, rfl⟩ := Option.ne_none_iff_exists'.mp stacked
  obtain ⟨⟨i, j⟩, found⟩ := Option.ne_none_iff_exists'.mp numbered
  subst given
  have nonneg : ¬ ((i : Int) * 32 + j = -1) := by omega
  have different : (some p : Option π) ≠ some pcb := by simpa using other
  simp only [doForkPointers, if_neg (Nat.not_lt.mpr room), setKthreadStack, Option.map_some, getPid,
    edit, createPcb, found, if_neg nonneg, enlistPointers, addLinksPointers, setParent]
  simp [other, Ne.symm other]

theorem doForkPointers_refused (refused : chunk = none ∨ stack = none) :
    table.doForkPointers (some p) chunk stack = [] := by
  unfold doForkPointers
  split
  · rfl
  · rcases refused with rfl | rfl
    · rfl
    · cases chunk <;> rfl

theorem parent_mem_exitPointers :
    (table.pcb (some p)).parent ∈ table.pointers (.exit p fuel) := by
  simp [pointers, sendChldToInitPointers]

/-- Only `idle` is there, with neither parent nor child. -/
structure Bare (table : ProcTable π) (idle : π) : Prop where
  only : ∀ p, table.allocated p = true ↔ p = idle
  alone : (table.pcb (some idle)).cptr = none ∧ (table.pcb (some idle)).parent = none
  awake : (table.pcb (some idle)).state ≠ .taskZombie
  room : table.procNum ≤ maxProcess
  numbered : clearBit table.pids ≠ none

/-- `malloc` or `alloc_page` gives nothing. -/
def Refused : FamilyOp π → Prop
  | .fork _ chunk stack => chunk = none ∨ stack = none
  | _ => False

theorem Bare.booted {kernStack : Nat} (unbooted : table.Unbooted) :
    (table.procInit idle kernStack).Bare idle := by
  have accounted := @Accounted.booted _ _ table idle kernStack unbooted
  obtain ⟨cptr, parent, ready⟩ := @procInit_idle _ _ table idle kernStack
  refine ⟨?_, ⟨cptr, parent⟩, by simp [ready], ?_, ?_⟩
  · intro p
    simpa using accounted.allocated p
  · rw [accounted.num]
    simp [maxProcess]
  · have first : clearBit (fun _ => 0#32) = some (0, 0) := by decide +kernel
    have pids : (table.procInit idle kernStack).pids =
        Function.update (fun _ => 0#32) 0 (setBit 0#32 31 true) := by
      simp only [procInit, getPid, createPcb, edit, first]
    rw [pids]
    decide +kernel

theorem Bare.fork (bare : table.Bare idle) (refused : chunk = none ∨ stack = none)
    (free : chunk.all (fun pcb => !table.allocated pcb) = true) :
    (table.doFork (some p) chunk stack).2.Bare idle := by
  unfold doFork
  rw [if_neg (Nat.not_lt.mpr bare.room)]
  cases chunk with
  | none => exact bare
  | some pcb =>
      obtain given | rfl := refused
      · contradiction
      · have unused : table.allocated pcb = false := by simpa using free
        have other : idle ≠ pcb := by
          intro same
          rw [← same, (bare.only idle).mpr rfl] at unused
          contradiction
        have kept : Function.update (Function.update table.allocated pcb true) pcb false =
            table.allocated := by
          rw [Function.update_idem, ← unused, Function.update_eq_self]
        have same : (table.createPcb pcb).pcb (some idle) = table.pcb (some idle) := by
          simp [createPcb, edit, other]
        refine ⟨?_, ?_, ?_, bare.room, bare.numbered⟩
        · intro q
          change Function.update (Function.update table.allocated pcb true) pcb false q = true ↔ _
          rw [kept]
          exact bare.only q
        · exact ⟨(congrArg Pcb.cptr same).trans bare.alone.1,
            (congrArg Pcb.parent same).trans bare.alone.2⟩
        · exact fun dead => bare.awake ((congrArg Pcb.state same).symm.trans dead)

theorem Bare.step {op : FamilyOp π} (bare : table.Bare idle) (refused : Refused op)
    (moved : table.bootedStep op = some after) : after.Bare idle := by
  cases op with
  | fork p chunk stack =>
      simp only [bootedStep] at moved
      split at moved
      · next enabled =>
          cases moved
          exact bare.fork refused enabled.2
      · contradiction
  | exit p fuel => cases refused
  | recycle child => cases refused

/-- From `idle` alone, whoever is not refused goes through a `NULL` pointer. -/
theorem Bare.pointers {op : FamilyOp π} (bare : table.Bare idle)
    (moved : table.bootedStep op = some after) :
    (∀ ptr ∈ table.pointers op, ptr ≠ none) ↔ Refused op := by
  cases op with
  | fork p chunk stack =>
      simp only [bootedStep] at moved
      split at moved
      · next enabled =>
          obtain ⟨⟨live, _⟩, free⟩ := enabled
          obtain rfl := (bare.only p).mp live
          constructor
          · intro sound
            by_contra accepted
            obtain ⟨given, stacked⟩ := not_or.mp accepted
            obtain ⟨pcb, rfl⟩ := Option.ne_none_iff_exists'.mp given
            have other : p ≠ pcb := by
              intro same
              subst same
              simp [live] at free
            have found := doForkPointers_eq bare.room rfl stacked bare.numbered other
            refine sound none ?_ rfl
            rw [ProcTable.pointers, found, bare.alone.1]
            simp
          · intro refused
            rw [ProcTable.pointers, doForkPointers_refused refused]
            simp
      · contradiction
  | exit p fuel =>
      simp only [bootedStep] at moved
      split at moved
      · next alive =>
          obtain rfl := (bare.only p).mp alive.1
          constructor
          · intro sound
            exact sound none (bare.alone.2 ▸ parent_mem_exitPointers) rfl
          · intro refused
            cases refused
      · contradiction
  | recycle child =>
      simp only [bootedStep] at moved
      split at moved
      · next enabled =>
          obtain rfl := (bare.only child).mp enabled.1
          exact absurd enabled.2 bare.awake
      · contradiction

/-- In a run from boot no family pointer is `NULL` when it is followed, just as
long as no process is created and none exits. -/
theorem null_family_pointers (trace : (bootedMachine π).Trace) :
    (∀ i < trace.length, ∀ ptr ∈ (trace.state i).pointers (trace.label i), ptr ≠ none) ↔
      ∀ i < trace.length, Refused (trace.label i) := by
  obtain ⟨unbooted, idle, kernStack, blank, started⟩ := trace.start
  -- Up to the first step that is not refused, `idle` is alone.
  have bare : ∀ i ≤ trace.length, (∀ k < i, Refused (trace.label k)) →
      (trace.state i).Bare idle := by
    intro i
    induction i with
    | zero =>
        intro _ _
        rw [started]
        exact Bare.booted blank
    | succ i ih =>
        intro within refused
        exact (ih (by omega) (fun k earlier => refused k (by omega))).step (refused i (by omega))
          (trace.step i (by omega))
  constructor
  · intro sound i
    induction i using Nat.strong_induction_on with
    | _ i ih =>
        intro within
        have alone := bare i (by omega) (fun k earlier => ih k earlier (by omega))
        exact (alone.pointers (trace.step i within)).mp (sound i within)
  · intro refused i within
    have alone := bare i (by omega) (fun k earlier => refused k (by omega))
    exact (alone.pointers (trace.step i within)).mpr (refused i within)

/-- `idle` asks for two threads: `alloc_page` refuses the first one its stack, and the second
gets it or not. -/
def secondThread (stack : Option Nat) : (bootedMachine Nat).Trace :=
  .ofLabels (bootedMachine Nat) (blank.procInit 0 0) ⟨blank, 0, 0, ⟨fun _ => rfl, rfl, rfl⟩, rfl⟩
    (.recycle 0) [.fork 0 (some 1) none, .fork 0 (some 1) stack]
    (by cases stack <;> rfl)

theorem null_family_pointers_secondThread :
    (∀ i < 2, ∀ ptr ∈ ((secondThread none).state i).pointers ((secondThread none).label i),
      ptr ≠ none) ∧
    ¬ ∀ i < 2, ∀ ptr ∈ ((secondThread (some 0)).state i).pointers ((secondThread (some 0)).label i),
      ptr ≠ none := by
  refine ⟨(null_family_pointers (secondThread none)).mpr ?_, ?_⟩
  · intro i within
    have small : i < 2 := within
    obtain rfl | rfl : i = 0 ∨ i = 1 := by omega
    · exact .inr rfl
    · exact .inr rfl
  · intro sound
    rcases (null_family_pointers (secondThread (some 0))).mp sound 1 (by decide) with chunk | stack
    · cases chunk
    · cases stack

/-- The kernel boots and `idle` starts its first thread. -/
theorem first_fork_null :
    ¬ ∀ table, (bootedMachine Nat).Reachable table → ∀ op after,
      table.bootedStep op = some after → ∀ ptr ∈ table.pointers op, ptr ≠ none := by
  intro claimed
  have start : (bootedMachine Nat).Reachable (blank.procInit 0 0) :=
    .start ⟨blank, 0, 0, ⟨fun _ => rfl, rfl, rfl⟩, rfl⟩
  have followed : none ∈ (blank.procInit 0 0).pointers (.fork 0 (some 1) (some 0)) := by
    decide +kernel
  exact claimed _ start (.fork 0 (some 1) (some 0)) _ rfl none followed rfl

end ProcTable

end WindOs.Proc
