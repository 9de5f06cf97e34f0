import WindOs.Sched.Kernel

namespace WindOs.Proc

open Data Sync Sched

universe u

/-! # The process table of proc.c

A PCB is known by its address; `none` is `NULL`.  The fields for the address
space and the saved registers are left to the modules on memory.
-/

inductive ProcWaitstate where
  | notWt
  | wtChild
deriving DecidableEq, Repr

/-- `struct pcb_t`.  `since` is no field of the source: it says when `parent` was
last assigned. -/
structure Pcb (π : Type u) where
  state : ProcLifecircle
  pid : Int
  startStack : Nat
  parent : Option π
  waitstate : ProcWaitstate
  cptr : Option π
  yptr : Option π
  optr : Option π
  since : Nat
deriving DecidableEq

/-- `pcb none` is the memory at address 0, which is no PCB: accesses through
`NULL` go there.  `allocated` are the PCBs handed out by `malloc`, `released` the
addresses for which a kernel stack was given to `free_page`, latest first, and
`clock` counts the assignments to `parent`. -/
structure ProcTable (π : Type u) where
  pcb : Option π → Pcb π
  procs : Links (ProcNode π)
  allocated : π → Bool
  released : List Nat
  idle : Option π
  initProc : Option π
  procNum : Nat
  pids : Nat → BitVec 32
  clock : Nat

def maxProcess : Nat := 4096

def kthreadStackPage : Nat := 2

/-- `sizeof(pids) / sizeof(u32)` -/
def bitmapNum : Nat := 128

def setBit (num : BitVec 32) (pos : Nat) (isSetOne : Bool) : BitVec 32 :=
  if isSetOne then num ||| (1#32 <<< pos) else num &&& ~~~(1#32 <<< pos)

def getBit (num : BitVec 32) (pos : Nat) : Nat :=
  if num &&& (1#32 <<< pos) = 0#32 then 0 else 1

namespace ProcTable

variable {π : Type u} [DecidableEq π]

/-- Assign fields of the PCB that `ptr` points to. -/
def edit (table : ProcTable π) (ptr : Option π) (write : Pcb π → Pcb π) : ProcTable π :=
  { table with pcb := Function.update table.pcb ptr (write (table.pcb ptr)) }

/-- The same behind a test that the pointer is not `NULL`. -/
def editUnlessNull (table : ProcTable π) (ptr : Option π) (write : Pcb π → Pcb π) : ProcTable π :=
  if ptr ≠ none then table.edit ptr write else table

def setParent (table : ProcTable π) (child parent : Option π) : ProcTable π :=
  { table.edit child fun pcb => { pcb with parent, since := table.clock } with
    clock := table.clock + 1 }

def wakeupProcess (table : ProcTable π) (pcb : Option π) : ProcTable π :=
  table.edit pcb fun pcb => { pcb with state := .taskRunnable }

/-- The first word of the bitmap that is not full, and its first clear bit. -/
def clearBit (pids : Nat → BitVec 32) : Option (Nat × Nat) :=
  (List.range bitmapNum).findSome? fun i =>
    if pids i ≠ 0xFFFFFFFF#32 then
      ((List.range 32).find? fun j => getBit (pids i) (31 - j) = 0).map fun j => (i, j)
    else none

def getPid (table : ProcTable π) : Int × ProcTable π :=
  match clearBit table.pids with
  | some (i, j) =>
      (i * 32 + j, { table with
        pids := Function.update table.pids i (setBit (table.pids i) (31 - j) true) })
  | none => (-1, table)

/-- `create_pcb` when `malloc` returned `pcb`. -/
def createPcb (table : ProcTable π) (pcb : π) : ProcTable π :=
  { table.edit (some pcb) fun old =>
      { old with
        state := .taskReady, pid := -1, startStack := 0, parent := none
        waitstate := .notWt, cptr := none, yptr := none, optr := none } with
    allocated := Function.update table.allocated pcb true }

def free (table : ProcTable π) (pcb : π) : ProcTable π :=
  { table with allocated := Function.update table.allocated pcb false }

/-- `free_page(la_addr_to_pg(la), KTHREAD_STACK_PAGE)` -/
def freeStack (table : ProcTable π) (la : Nat) : ProcTable π :=
  { table with released := la :: table.released }

/-- Unlink the PCB from its siblings. -/
def removeLinks (table : ProcTable π) (child : Option π) : ProcTable π :=
  let table :=
    if (table.pcb child).yptr ≠ none then
      table.edit (table.pcb child).yptr fun y => { y with optr := (table.pcb child).optr }
    else table.edit (table.pcb child).parent fun p => { p with cptr := (table.pcb child).optr }
  table.editUnlessNull (table.pcb child).optr fun o => { o with yptr := (table.pcb child).yptr }

def recycleChild (table : ProcTable π) (child : π) : ProcTable π :=
  let table := table.removeLinks (some child)
  let table := table.freeStack
    (((table.pcb (some child)).startStack + 2 ^ 32 - 4096 * kthreadStackPage) % 2 ^ 32)
  let table := { table with procs := listDelete table.procs (.node child) }
  table.free child

/-- Put a new child in front of its parent's other children. -/
def addLinks (table : ProcTable π) (pcb : Option π) : ProcTable π :=
  let table := table.edit pcb fun child =>
    { child with optr := (table.pcb child.parent).cptr }
  let table := table.edit (table.pcb pcb).parent fun parent => { parent with cptr := pcb }
  table.edit (table.pcb pcb).optr fun older => { older with yptr := pcb }

/-- `set_kthread_stack`, where `stack` is the linear address of the pages that
`alloc_page` returned. -/
def setKthreadStack (table : ProcTable π) (pcb : π) (stack : Option Nat) : Option (ProcTable π) :=
  stack.map fun pages => table.edit (some pcb) fun child =>
    { child with startStack := (pages + 4096 * kthreadStackPage + 2 ^ 32 - 4) % 2 ^ 32 }

/-- The end of `do_fork`: the new process gets its parent, its place on
`proc_list` and its siblings. -/
def enlist (table : ProcTable π) (pcb : π) (current : Option π) : ProcTable π :=
  let table := table.setParent (some pcb) current
  let table := { table with
    procs := listInsertAfter table.procs .procList (.node pcb)
    procNum := table.procNum + 1 }
  let table := table.addLinks (some pcb)
  table.wakeupProcess (some pcb)

/-- `do_fork`, when `malloc` returned `chunk` and `alloc_page` returned `stack`. -/
def doFork (table : ProcTable π) (current : Option π) (chunk : Option π) (stack : Option Nat) :
    Int × ProcTable π :=
  if table.procNum > maxProcess then (-1, table)
  else match chunk with
    | none => (-1, table)
    | some pcb =>
        match (table.createPcb pcb).setKthreadStack pcb stack with
        | none => (-1, (table.createPcb pcb).free pcb)
        | some table =>
            let (pid, table) := table.getPid
            let table := table.edit (some pcb) fun child => { child with pid }
            if pid = -1 then
              let table := table.free pcb
              (-1, table.freeStack (table.pcb (some pcb)).startStack)
            else
              let table := table.enlist pcb current
              ((table.pcb (some pcb)).pid, table)

/-- Take the youngest child off its parent's chain. -/
def detach (table : ProcTable π) (current child : Option π) : ProcTable π :=
  let table := table.edit current fun pcb => { pcb with cptr := (table.pcb child).optr }
  let table := table.edit child fun pcb => { pcb with yptr := none }
  table.edit (table.pcb child).optr fun older => { older with yptr := none }

/-- Put a child in front of the children of `init_proc`. -/
def adopt (table : ProcTable π) (child : Option π) : ProcTable π :=
  let table := table.edit child fun pcb => { pcb with optr := (table.pcb table.initProc).cptr }
  let table := table.editUnlessNull (table.pcb table.initProc).cptr fun older =>
    { older with yptr := child }
  let table := table.edit table.initProc fun init => { init with cptr := child }
  table.setParent child table.initProc

/-- One round of the loop of `send_chld_to_init`. -/
def handOver (table : ProcTable π) (current child : Option π) : ProcTable π :=
  let table := (table.detach current child).adopt child
  if (table.pcb child).state = .taskZombie ∧ (table.pcb table.initProc).waitstate = .wtChild then
    table.wakeupProcess table.initProc
  else table

/-- `none` says that the loop did not end within `fuel` rounds. -/
def sendChldToInit (fuel : Nat) (table : ProcTable π) (current : Option π) :
    Option (ProcTable π) :=
  let parent := (table.pcb current).parent
  let table :=
    if (table.pcb parent).waitstate = .wtChild then table.wakeupProcess parent else table
  loop (fun table =>
    if (table.pcb current).cptr ≠ none then
      .inl (table.handOver current (table.pcb current).cptr)
    else .inr table) fuel table

/-- `do_exit` up to its call of `schedule`, after which the process is not run again. -/
def doExit (fuel : Nat) (table : ProcTable π) (current : Option π) : Option (ProcTable π) :=
  (table.edit current fun pcb => { pcb with state := .taskZombie }).sendChldToInit fuel current

/-- `proc_init`, when `malloc` returned `idle`. -/
def procInit (table : ProcTable π) (idle : π) (kernStack : Nat) : ProcTable π :=
  let table := { table with
    procs := listInit table.procs .procList
    pids := fun _ => 0#32 }
  let table := { table.createPcb idle with idle := some idle }
  let (pid, table) := table.getPid
  let table := table.edit (some idle) fun pcb => { pcb with
    pid
    startStack := (kernStack + 4096 * kthreadStackPage) % 2 ^ 32
    state := .taskReady }
  { table with procNum := table.procNum + 1 }

/-- What the globals are before `proc_init`; memory may hold anything. -/
structure Unbooted (table : ProcTable π) : Prop where
  allocated : ∀ p, table.allocated p = false
  initProc : table.initProc = none
  procNum : table.procNum = 0

end ProcTable

/-! ## do_waitpid

A call runs from its beginning, or from the return of `schedule()`, until it
returns or calls `schedule()` again.  What it still knows while it sleeps is its
variable `chd`.
-/

inductive WaitPoint (π : Type u) where
  | any (chd : π)
  | one (chd : π)
deriving DecidableEq

/-- `reaped` is the PCB that `recycle_child` was called with. -/
inductive Segment (π : Type u) where
  | returned (code : Int) (reaped : Option π) (table : ProcTable π)
  | scheduling (point : WaitPoint π)

namespace ProcTable

variable {π : Type u} [DecidableEq π]

def reap (table : ProcTable π) (chd : π) : Segment π :=
  .returned 0 (some chd) (table.recycleChild chd)

/-- One round of the search for a zombie; the accumulator is `has_child` and `chd`. -/
def visitAny (table : ProcTable π) (current : Option π) :
    ProcNode π → Bool × Option π → (Bool × Option π) ⊕ Segment π
  | .procList, found => .inl found
  | .node chd, (hasChild, _) =>
      if (table.pcb (some chd)).parent = current then
        if (table.pcb (some chd)).state = .taskZombie then .inr (table.reap chd)
        else .inl (true, some chd)
      else .inl (hasChild, some chd)

/-- Behind the loop.  Whoever set `has_child` has set `chd` as well. -/
def finishAny (table : ProcTable π) : Bool × Option π → Segment π
  | (true, some chd) => .scheduling (.any chd)
  | _ => .returned (-1) none table

def waitAny (fuel : Nat) (table : ProcTable π) (current : Option π) (found : Bool × Option π) :
    Option (Segment π) :=
  loop (walk table.procs .procList (table.visitAny current) table.finishAny) fuel
    (table.procs.next .procList, found)

/-- The loop around a child that was found by its pid. -/
def waitFor (table : ProcTable π) (chd : π) : Segment π :=
  if (table.pcb (some chd)).state = .taskZombie then table.reap chd else .scheduling (.one chd)

def visitOne (table : ProcTable π) (current : Option π) (pid : Int) :
    ProcNode π → Unit → Unit ⊕ Segment π
  | .procList, _ => .inl ()
  | .node chd, _ =>
      if (table.pcb (some chd)).pid = pid then
        if (table.pcb (some chd)).parent = current then .inr (table.waitFor chd)
        else .inr (.returned (-1) none table)
      else .inl ()

def waitOne (fuel : Nat) (table : ProcTable π) (current : Option π) (pid : Int) :
    Option (Segment π) :=
  loop (walk table.procs .procList (table.visitOne current pid)
    fun _ => .returned 0 none table) fuel (table.procs.next .procList, ())

/-- `do_waitpid` up to its return or its first call of `schedule()`. -/
def beginWait (fuel : Nat) (table : ProcTable π) (current : Option π) (pid : Int) :
    Option (Segment π) :=
  if pid = 0 then table.waitAny fuel current (false, none) else table.waitOne fuel current pid

/-- The same from the return of `schedule()`: the `goto` leads into the loop, to
the test of the `chd` that the finished scan has left. -/
def resumeWait (fuel : Nat) (table : ProcTable π) (current : Option π) :
    WaitPoint π → Option (Segment π)
  | .any chd =>
      if (table.pcb (some chd)).state = .taskZombie then some (table.reap chd)
      else table.waitAny fuel current (true, some chd)
  | .one chd => some (table.waitFor chd)

end ProcTable

end WindOs.Proc
