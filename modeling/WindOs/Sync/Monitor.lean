import WindOs.Data.Machine
import WindOs.Sync.Semaphore

namespace WindOs.Sync

open Data

universe u v

/-! # monitor.c

Every process repeats `enter`, any calls of `wait` and `signal`, and `leave`.
A program counter names the statement a process executes next.  `P` and `V`
run with interrupts off and are one step each; every other statement is a step
of its own, so a process may be preempted between any two of them.
-/

/-- The semaphores of a `struct monitor_t` with condition variables `κ`. -/
inductive MonitorSem (κ : Type u) where
  | mutex
  | next
  | xSem (cond : κ)
deriving DecidableEq, Repr

/-- The statement a process executes next.  `enter`, `waitSleep` and `signalSleep`
stand before the three calls of `P`; `entering`, `waiting` and `signaling` are
inside them, asleep or woken but not yet returned.  `waitNext`, `waitMutex`,
`leaveNext`, `leaveMutex` and `signalWake` stand before the calls of `V`, and
the `Test`, `Count`, `Uncount` and `Print` positions before the comparison, the
increment, the decrement and the `print_thread_chains()` of their function. -/
inductive Pc (κ : Type u) where
  | enter
  | entering
  | body
  | waitCount (cond : κ)
  | waitTest (cond : κ)
  | waitNext (cond : κ)
  | waitMutex (cond : κ)
  | waitSleep (cond : κ)
  | waiting (cond : κ)
  | waitUncount (cond : κ)
  | waitPrint (cond : κ)
  | signalTest (cond : κ)
  | signalCount (cond : κ)
  | signalWake (cond : κ)
  | signalSleep (cond : κ)
  | signaling (cond : κ)
  | signalUncount (cond : κ)
  | leaveTest
  | leaveNext
  | leaveMutex
deriving DecidableEq, Repr

/-- What a process between two calls may call next. -/
inductive Call (κ : Type u) where
  | wait (cond : κ)
  | signal (cond : κ)
  | leave
deriving DecidableEq, Repr

/-- A process executes its next statement, or makes a call from the body. -/
structure Label (π : Type v) (κ : Type u) where
  process : π
  call : Option (Call κ)
deriving DecidableEq, Repr

/-- A monitor together with the control state of the processes that use it. -/
structure Monitor (π : Type v) (κ : Type u) where
  sems : Sems (MonitorSem κ) π
  nextCount : Int
  xCount : κ → Int
  pc : π → Pc κ

def monitorInit {π : Type v} {κ : Type u} : Monitor π κ where
  sems :=
    { sem := fun s => match s with
        | .mutex => semaphoreInit 1
        | .next => semaphoreInit 0
        | .xSem _ => semaphoreInit 0
      state := fun _ => .taskRunnable }
  nextCount := 0
  xCount := fun _ => 0
  pc := fun _ => .enter

namespace Monitor

variable {π : Type v} {κ : Type u} [DecidableEq π] [DecidableEq κ]

def goto (monitor : Monitor π κ) (p : π) (pc : Pc κ) : Monitor π κ :=
  { monitor with pc := Function.update monitor.pc p pc }

/-- `P(s)` by `p`: it goes on at `passed`, or sleeps inside the call at `asleep`. -/
def doP (monitor : Monitor π κ) (p : π) (s : MonitorSem κ) (asleep passed : Pc κ) : Monitor π κ :=
  { monitor.goto p (if (monitor.sems.sem s).value - 1 < 0 then asleep else passed) with
    sems := monitor.sems.P s p }

def doV (monitor : Monitor π κ) (p : π) (s : MonitorSem κ) (pc : Pc κ) : Monitor π κ :=
  { monitor.goto p pc with sems := monitor.sems.V s }

def addNextCount (monitor : Monitor π κ) (change : Int) : Monitor π κ :=
  { monitor with nextCount := monitor.nextCount + change }

def addXCount (monitor : Monitor π κ) (cond : κ) (change : Int) : Monitor π κ :=
  { monitor with xCount := Function.update monitor.xCount cond (monitor.xCount cond + change) }

/-- The next statement of a process that is inside one of the four functions. -/
def execute (monitor : Monitor π κ) (p : π) : Option (Monitor π κ) :=
  match monitor.pc p with
  -- enter
  | .enter => some (monitor.doP p .mutex .entering .body)
  | .entering => some (monitor.goto p .body)
  | .body => none
  -- wait
  | .waitCount cond => some ((monitor.addXCount cond 1).goto p (.waitTest cond))
  | .waitTest cond =>
      if monitor.nextCount > 0 then some (monitor.goto p (.waitNext cond))
      else some (monitor.goto p (.waitMutex cond))
  | .waitNext cond => some (monitor.doV p .next (.waitSleep cond))
  | .waitMutex cond => some (monitor.doV p .mutex (.waitSleep cond))
  | .waitSleep cond => some (monitor.doP p (.xSem cond) (.waiting cond) (.waitUncount cond))
  | .waiting cond => some (monitor.goto p (.waitUncount cond))
  | .waitUncount cond => some ((monitor.addXCount cond (-1)).goto p (.waitPrint cond))
  | .waitPrint _ => some (monitor.goto p .body)
  -- signal; with nobody waiting it does nothing
  | .signalTest cond =>
      if monitor.xCount cond > 0 then some (monitor.goto p (.signalCount cond))
      else some (monitor.goto p .body)
  | .signalCount cond => some ((monitor.addNextCount 1).goto p (.signalWake cond))
  | .signalWake cond => some (monitor.doV p (.xSem cond) (.signalSleep cond))
  | .signalSleep cond => some (monitor.doP p .next (.signaling cond) (.signalUncount cond))
  | .signaling cond => some (monitor.goto p (.signalUncount cond))
  | .signalUncount _ => some ((monitor.addNextCount (-1)).goto p .body)
  -- leave
  | .leaveTest =>
      if monitor.nextCount > 0 then some (monitor.goto p .leaveNext)
      else some (monitor.goto p .leaveMutex)
  | .leaveNext => some (monitor.doV p .next .enter)
  | .leaveMutex => some (monitor.doV p .mutex .enter)

/-- A call from the body only transfers control to the callee's first statement. -/
def call (monitor : Monitor π κ) (p : π) (target : Call κ) : Option (Monitor π κ) :=
  if monitor.pc p = .body then
    match target with
    | .wait cond => some (monitor.goto p (.waitCount cond))
    | .signal cond => some (monitor.goto p (.signalTest cond))
    | .leave => some (monitor.goto p .leaveTest)
  else none

/-- Any process that is not asleep may take the next step. -/
def step (monitor : Monitor π κ) (label : Label π κ) : Option (Monitor π κ) :=
  if monitor.sems.state label.process = .taskSleeping then none
  else match label.call with
    | none => monitor.execute label.process
    | some target => monitor.call label.process target

/-- All processes start before their first `enter`. -/
def machine (π : Type v) (κ : Type u) [DecidableEq π] [DecidableEq κ] :
    Machine (Monitor π κ) (Label π κ) where
  start monitor := monitor = monitorInit
  step := step

end Monitor

end WindOs.Sync
